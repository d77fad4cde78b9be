import Mathlib
import MonotoneEquations.Proofs.StorePropagation

/-!
# The log as a chronicle

The log of a solver can be checked from left to right: whether an event may stand where it stands
depends only on the events before it. An equation is stored before it is changed, it is changed only
while it has no value, and what is put into it goes back to a key that has got its value before.

`Solver.Logged` compares the log with the entries: the resolved keys in the log are those of the
entries, the stored keys are those of the equations that waited at first, and a waiting entry is among
the stored ones. Registering an equation keeps this, and so does announcing a key, one entry at a time.
-/

namespace MonotoneEquations

variable {D : Type}

/-! ## Logs -/

/-- The key of an event that stores an equation. -/
def Event.stored? : Event D → Option Key
  | .pending key _ => some key
  | _ => none

/-- Whether an event puts a value in the place of `source` in the equation of `target`. -/
def Event.passes (source target : Key) : Event D → Bool
  | .substituted origin reader _ => origin = source && reader = target
  | _ => false

/-- The keys whose equations a log shows as stored, in order. -/
def storedKeys (log : List (Event D)) : List Key := log.filterMap Event.stored?

/-- The keys that a log shows as resolved, with their values, in order. -/
def resolvedPairs (log : List (Event D)) : List (Key × D) := log.filterMap Event.resolution?

/-- A resolved key justifies what is put in the place of a key: its negation reads as its value, and
so does the key itself if it is stable; an unstable key reads as top. -/
def Justifies [Domain D] (origin : Key × D) (source : Key) (value : D) : Prop :=
  source = origin.1.negate ∧ value = origin.2 ∨
    source = origin.1 ∧ value = if origin.1.stable then origin.2 else Domain.top

/-- Whether an event can follow the events before it. -/
def Event.FollowsFrom [Domain D] (before : List (Event D)) : Event D → Prop
  | .pending key _ => key ∉ storedKeys before ∧ ∀ value, (key, value) ∉ resolvedPairs before
  | .resolved key _ => ∀ value, (key, value) ∉ resolvedPairs before
  | .substituted source target value =>
    target ∈ storedKeys before ∧ (∀ result, (target, result) ∉ resolvedPairs before) ∧
      ∃ origin ∈ resolvedPairs before, Justifies origin source value
  | .registered _ _ | .finished _ _ => True

/-- Every event of a log follows from the events before it. -/
def IsChronicle [Domain D] (log : List (Event D)) : Prop :=
  ∀ before event after, log = before ++ event :: after → event.FollowsFrom before

/-- A log without events is a chronicle. -/
theorem isChronicle_nil [Domain D] : IsChronicle ([] : List (Event D)) := by
  intro before event after hnil
  simp at hnil

/-- A chronicle is continued by an event that follows from it. -/
theorem IsChronicle.concat [Domain D] {log : List (Event D)} {event : Event D} (h : IsChronicle log)
    (hevent : event.FollowsFrom log) : IsChronicle (log ++ [event]) := by
  intro before other after hsplit
  rcases List.eq_nil_or_concat after with rfl | ⟨after, last, rfl⟩
  · obtain ⟨rfl, hlast⟩ := List.append_inj' hsplit rfl
    obtain rfl := List.singleton_inj.mp hlast
    exact hevent
  · have hsplit : log ++ [event] = (before ++ other :: after) ++ [last] := by simpa using hsplit
    exact h before other after (List.append_inj' hsplit rfl).1

/-- An entry ignores a value, or it waits and the value is put in, which may resolve it. -/
theorem Entry.receive_cases [Domain D] [DecidableEq D] (source : Key) (value : D) (entry : Entry D) :
    entry.receive source value = (entry, []) ∨
      entry.status.isWaiting ∧
        ((∃ sum, entry.receive source value =
            ({ entry with status := .waiting sum }, [.substituted source entry.key value])) ∨
          ∃ result, entry.receive source value =
            ({ entry with status := .resolved result },
              [.substituted source entry.key value, .resolved entry.key result])) := by
  cases hstatus : entry.status with
  | resolved result => exact .inl (receive_of_resolved hstatus source value)
  | waiting sum =>
    by_cases hsource : source ∈ entry.mentions
    · have hreceive := receive_of_waiting hstatus hsource value
      refine .inr ⟨rfl, ?_⟩
      cases hnext : Status.substitute source value sum with
      | waiting rest =>
        rw [hnext] at hreceive
        exact .inl ⟨rest, hreceive⟩
      | resolved result =>
        rw [hnext] at hreceive
        exact .inr ⟨result, hreceive⟩
    · exact .inl (receive_of_not_mem hsource value)

/-- An entry that receives a value is not stored again. -/
theorem Entry.storedKeys_receive [Domain D] [DecidableEq D] (source : Key) (value : D)
    (entry : Entry D) : storedKeys (entry.receive source value).2 = [] := by
  rcases receive_cases source value entry with hreceive | ⟨-, ⟨_, hreceive⟩ | ⟨_, hreceive⟩⟩
  all_goals
    rw [hreceive]
    rfl

/-- An entry that still waits after it has received a value waited before. -/
theorem Entry.isWaiting_of_isWaiting_receive [Domain D] [DecidableEq D] {source : Key} {value : D}
    {entry : Entry D} (h : (entry.receive source value).1.status.isWaiting) :
    entry.status.isWaiting := by
  rcases receive_cases source value entry with hstays | ⟨hwaits, -⟩
  · rwa [hstays] at h
  · exact hwaits

/-! ## What the log knows about the entries -/

namespace Solver

/-- The log of a solver is a chronicle that agrees with the entries. It shows exactly the equations of
the system as stored that waited before anything was known. -/
structure Logged [Domain D] [DecidableEq D] (system : List (Equation D)) (solver : Solver D) : Prop where
  nodup : (system.map Equation.key).Nodup
  keys_eq : solver.entries.map Entry.key = system.map Equation.key
  chronicle : IsChronicle solver.log
  resolved_perm : (resolvedPairs solver.log).Perm solver.resolutions
  stored_eq : storedKeys solver.log =
    (system.filter fun equation => (equation.rhs.statusUnder .nothing).isWaiting).map Equation.key
  waiting_mem : ∀ entry ∈ solver.entries, entry.status.isWaiting → entry.key ∈ storedKeys solver.log

variable {solver : Solver D} {system : List (Equation D)} {told rest : List (Key × D)}

variable [Domain D] [DecidableEq D]

/-- A new solver has logged nothing. -/
theorem logged_new (limit : Nat) : Logged [] (new limit : Solver D) where
  nodup := List.nodup_nil
  keys_eq := rfl
  chronicle := isChronicle_nil
  resolved_perm := .nil
  stored_eq := rfl
  waiting_mem := fun _ hentry => nomatch hentry

omit [Domain D] [DecidableEq D] in
/-- Registering an equation logs it as stored if it waits. -/
theorem storedKeys_register (solver : Solver D) (key : Key) (status : Status D) :
    storedKeys (solver.register key status).log =
      storedKeys solver.log ++ if status.isWaiting then [key] else [] := by
  rw [storedKeys, register, List.filterMap_append]
  cases status <;> rfl

/-- An entry that receives a value adds to the resolved keys what it announces. -/
theorem resolutions_receiveOne {before after : List (Entry D)} {entry : Entry D}
    (hentries : solver.entries = before ++ entry :: after) (source : Key) (value : D) :
    (solver.resolutions ++ (entry.receive source value).2.filterMap Event.resolution?).Perm
      (solver.receiveOne source value before entry after).resolutions := by
  have hreceive := Entry.resolution?_receive source value entry
  rw [resolutions, resolutions, receiveOne, hentries]
  simp only [List.filterMap_eq_flatMap_toList, List.flatMap_append, List.flatMap_cons] at hreceive ⊢
  rw [hreceive, List.append_assoc, List.append_assoc, List.append_assoc]
  refine List.Perm.append_left _ ?_
  rw [← List.append_assoc]
  exact List.perm_append_comm

namespace Logged

/-- A key that no equation defines does not occur in the log as stored or resolved. -/
theorem not_mem_of_not_mem_keys (h : Logged system solver) {key : Key}
    (hkey : key ∉ system.map Equation.key) :
    key ∉ storedKeys solver.log ∧ ∀ value, (key, value) ∉ resolvedPairs solver.log := by
  constructor
  · rw [h.stored_eq]
    exact fun hmem => hkey ((List.filter_sublist.map _).subset hmem)
  · intro value hmem
    obtain ⟨entry, hentry, rfl, -⟩ := mem_resolutions.mp (h.resolved_perm.mem_iff.mp hmem)
    exact hkey (h.keys_eq ▸ List.mem_map_of_mem hentry)

/-- The log does not show a waiting entry as resolved. -/
theorem not_mem_of_isWaiting (h : Logged system solver) {entry : Entry D}
    (hentry : entry ∈ solver.entries) (hwaits : entry.status.isWaiting) (value : D) :
    (entry.key, value) ∉ resolvedPairs solver.log := by
  intro hmem
  have hnodup : (solver.entries.map Entry.key).Nodup := h.keys_eq ▸ h.nodup
  obtain ⟨other, hother, hkey, hresolved⟩ := mem_resolutions.mp (h.resolved_perm.mem_iff.mp hmem)
  obtain rfl := List.inj_on_of_nodup_map hnodup hother hentry hkey
  rw [hresolved] at hwaits
  cases hwaits

/-- Registering an equation with a new key is logged. -/
theorem register (h : Logged system solver) {equation : Equation D}
    (hnew : equation.key ∉ system.map Equation.key) :
    Logged (system ++ [equation])
      (solver.register equation.key (equation.rhs.statusUnder .nothing)) := by
  obtain ⟨hstored, hresolved⟩ := h.not_mem_of_not_mem_keys hnew
  refine ⟨?_, ?_, ?_, ?_, ?_, ?_⟩
  · rw [List.map_append, List.map_singleton]
    exact (List.perm_append_singleton _ _).nodup_iff.mpr (List.nodup_cons.mpr ⟨hnew, h.nodup⟩)
  · rw [Solver.register, List.map_append, List.map_append, h.keys_eq]
    rfl
  · refine h.chronicle.concat ?_
    cases equation.rhs.statusUnder .nothing with
    | waiting sum => exact ⟨hstored, hresolved⟩
    | resolved value => exact hresolved
  · rw [resolutions_register, resolvedPairs, Solver.register, List.filterMap_append]
    refine h.resolved_perm.append ?_
    cases equation.rhs.statusUnder .nothing <;> exact .rfl
  · rw [storedKeys_register, h.stored_eq, List.filter_append, List.map_append]
    by_cases hwaits : (equation.rhs.statusUnder .nothing).isWaiting <;> simp [hwaits]
  · intro entry hentry hwaits
    rw [storedKeys_register, List.mem_append]
    rcases List.mem_append.mp hentry with hentry | hentry
    · exact .inl (h.waiting_mem entry hentry hwaits)
    · obtain rfl := List.mem_singleton.mp hentry
      exact .inr (by rw [if_pos hwaits]; exact List.mem_singleton_self _)

/-- The accepted ones of all offered equations are logged. -/
theorem addAll (h : Logged system solver) (offered : List (Equation D)) :
    Logged (system ++ solver.accepted offered) (solver.addAll offered) := by
  induction offered generalizing system solver with
  | nil =>
    rw [accepted, List.append_nil]
    exact h
  | cons equation offered ih =>
    rw [accepted, Solver.addAll]
    cases hadd : solver.add equation with
    | error _ => exact ih h
    | ok next =>
      obtain ⟨hnew, -, rfl⟩ := add_eq_ok_iff.mp hadd
      have hfresh : equation.key ∉ system.map Equation.key := by
        rw [← h.keys_eq]
        intro hmem
        obtain ⟨entry, hentry, hkey⟩ := List.mem_map.mp hmem
        rw [defines, List.any_eq_false] at hnew
        exact hnew entry hentry (decide_eq_true hkey)
      simpa using ih (h.register hfresh)

/-- What an entry does with a justified value continues the chronicle. -/
theorem isChronicle_receive (h : Logged system solver) {entry : Entry D}
    (hentry : entry ∈ solver.entries) {source : Key} {value : D}
    (horigin : ∃ origin ∈ resolvedPairs solver.log, Justifies origin source value) :
    IsChronicle (solver.log ++ (entry.receive source value).2) := by
  rcases Entry.receive_cases source value entry with hstays | ⟨hwaits, hreacts⟩
  · rw [hstays, List.append_nil]
    exact h.chronicle
  · have hunresolved := h.not_mem_of_isWaiting hentry hwaits
    have hput : IsChronicle (solver.log ++ [.substituted source entry.key value]) :=
      h.chronicle.concat ⟨h.waiting_mem entry hentry hwaits, hunresolved, horigin⟩
    obtain ⟨sum, hreceive⟩ | ⟨result, hreceive⟩ := hreacts
    · rw [hreceive]
      exact hput
    · have hresolved : IsChronicle
          (solver.log ++ [.substituted source entry.key value] ++ [.resolved entry.key result]) := by
        refine hput.concat fun other hother => hunresolved other ?_
        simpa [resolvedPairs, Event.resolution?] using hother
      rw [hreceive]
      simpa using hresolved

/-- What an entry does with a justified value is logged. -/
theorem receiveOne (h : Logged system solver) {before after : List (Entry D)} {entry : Entry D}
    (hentries : solver.entries = before ++ entry :: after) {source : Key} {value : D}
    (horigin : ∃ origin ∈ resolvedPairs solver.log, Justifies origin source value) :
    Logged system (solver.receiveOne source value before entry after) := by
  have hmem : entry ∈ solver.entries := by simp [hentries]
  have hlog : (solver.receiveOne source value before entry after).log =
      solver.log ++ (entry.receive source value).2 := rfl
  have hstored : storedKeys (solver.receiveOne source value before entry after).log =
      storedKeys solver.log := by
    rw [hlog, storedKeys, List.filterMap_append, ← storedKeys, ← storedKeys,
      Entry.storedKeys_receive, List.append_nil]
  refine ⟨h.nodup, (keys_receiveOne hentries source value).trans h.keys_eq,
    h.isChronicle_receive hmem horigin, ?_, hstored.trans h.stored_eq, ?_⟩
  · rw [hlog, resolvedPairs, List.filterMap_append]
    exact (h.resolved_perm.append_right _).trans (resolutions_receiveOne hentries source value)
  · intro other hother hwaits
    have hother : other ∈ before ++ (entry.receive source value).1 :: after := hother
    rw [hstored]
    rcases List.mem_append.mp hother with hother | hother
    · exact h.waiting_mem other (by simp [hentries, hother]) hwaits
    · rcases List.mem_cons.mp hother with rfl | hother
      · rw [Entry.key_receive]
        exact h.waiting_mem entry hmem (Entry.isWaiting_of_isWaiting_receive hwaits)
      · exact h.waiting_mem other (by simp [hentries, hother]) hwaits

/-- What all entries do with a justified value is logged. -/
theorem receiveAll (h : Logged system solver) {before after : List (Entry D)}
    (hentries : solver.entries = before ++ after) {source : Key} {value : D}
    (horigin : ∃ origin ∈ resolvedPairs solver.log, Justifies origin source value) :
    Logged system (solver.receiveAll source value before after) := by
  induction after generalizing solver before with
  | nil =>
    have hself : solver.receiveAll source value before [] = solver := by
      rw [List.append_nil] at hentries
      simp [Solver.receiveAll, ← hentries]
    rw [hself]
    exact h
  | cons entry after ih =>
    rw [receiveAll_cons]
    refine ih (h.receiveOne hentries horigin) (by rw [List.append_assoc]; rfl) ?_
    obtain ⟨origin, hmem, hjustifies⟩ := horigin
    refine ⟨origin, ?_, hjustifies⟩
    exact ((List.sublist_append_left _ _).filterMap _).subset hmem

/-- Passing a justified value on is logged. -/
theorem propagate (h : Logged system solver) {source : Key} {value : D}
    (horigin : ∃ origin ∈ resolvedPairs solver.log, Justifies origin source value) :
    Logged system (solver.propagate source value) :=
  h.receiveAll (List.nil_append _).symm horigin

/-- Announcing a resolved key is logged. -/
theorem announce (h : Logged system solver) {key : Key} {value : D}
    (hresolved : (key, value) ∈ resolvedPairs solver.log) :
    Logged system (solver.announce key value) := by
  have hkept (source : Key) (other : D) :
      (key, value) ∈ resolvedPairs (solver.propagate source other).log :=
    ((List.sublist_append_left _ _).filterMap _).subset hresolved
  unfold Solver.announce
  split
  next hstable =>
    have hself : value = if key.stable then value else Domain.top := (if_pos hstable).symm
    exact (h.propagate ⟨_, hresolved, .inr ⟨rfl, hself⟩⟩).propagate
      ⟨_, hkept key value, .inl ⟨rfl, rfl⟩⟩
  next hstable =>
    have hself : Domain.top = if key.stable then value else Domain.top := (if_neg hstable).symm
    exact (h.propagate ⟨_, hresolved, .inl ⟨rfl, rfl⟩⟩).propagate
      ⟨_, hkept key.negate value, .inr ⟨rfl, hself⟩⟩

end Logged

end Solver

end MonotoneEquations
