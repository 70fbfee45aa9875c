import HashIndex.Script.Begin

/-!
# The work of a step

Beginning a step uses up a part of its weight: what it leaves behind, in hooks and in tasks, leads
to fewer steps than the step itself counts for.

## Main statements

* `Session.work_lt_of_begin`: beginning a step makes the steps that are still to come fewer.
-/

namespace HashIndex.Script.Session

variable {K : Type}

open Fault

theorem work_le_of_withHandle {s s' : Session K} {name : String}
    {next : ElementId → Except Fault (Session K)}
    (hnext : ∀ e, next e = .ok s' → s'.work ≤ s.work)
    (h : s.withHandle name next = .ok s') : s'.work ≤ s.work := by
  unfold withHandle at h
  split at h
  · cases h
    exact Nat.le_refl _
  · exact hnext _ h

theorem work_le_of_takeHandle {s s' : Session K} {name : String}
    {next : ElementId → Session K → Except Fault (Session K)}
    (hnext : ∀ e handles, next e { s with handles := handles } = .ok s' → s'.work ≤ s.work)
    (h : s.takeHandle name next = .ok s') : s'.work ≤ s.work := by
  unfold takeHandle at h
  split at h
  · cases h
    exact Nat.le_refl _
  · exact hnext _ _ h

theorem work_le_of_withTable {s s' : Session K} {name : String} {next : TableId →
      Except Fault (Session K)} {bound : Nat} (hbound : s.work ≤ bound)
    (hnext : ∀ t, next t = .ok s' → s'.work ≤ bound)
    (h : s.withTable name next = .ok s') : s'.work ≤ bound := by
  unfold withTable at h
  split at h
  · cases h
    exact hbound
  · exact hnext _ h

theorem work_beginMalformed (s : Session K) (complaint : Complaint) (needs : List Need) :
    (s.beginMalformed complaint needs).work = s.work := by
  induction needs with
  | nil => rfl
  | cons need needs ih =>
    cases need <;> unfold beginMalformed <;> split <;> first | rfl | exact ih

/-- A table that is made or replaced leads to no steps of its own. -/
theorem work_le_of_beginTable {s s' : Session K} {name : String}
    {strategy : Strategy (Item K) K} {capacity : Capacity}
    (h : s.beginTable name strategy capacity = .ok s') : s'.work ≤ s.work := by
  simp only [beginTable, bind_eq_ok_iff] at h
  obtain ⟨⟨result, _⟩, hact, h⟩ := h
  obtain ⟨store, -, rfl⟩ := act_eq_ok_iff.mp hact
  split at h
  · cases h
    simp [Task.work]
  · rw [work_of_retire h]
    simp [Task.work]

/-- A new element can lead to the steps of its hook. -/
theorem work_of_beginCreate {s s' : Session K} {name : String} {item : Item K}
    {hook : List (Step K)} (h : s.beginCreate name item hook = .ok s') :
    s'.work = Step.totalWeight hook + s.work := by
  simp only [beginCreate, bind_eq_ok_iff] at h
  obtain ⟨⟨result, _⟩, hact, h⟩ := h
  obtain ⟨store, -, rfl⟩ := act_eq_ok_iff.mp hact
  cases h
  simp [Task.work]

theorem work_le_of_beginHold {s s' : Session K} {name target : String}
    (h : s.beginHold name target = .ok s') : s'.work ≤ s.work := by
  refine work_le_of_withHandle (fun e h => ?_) h
  simp only [bind_eq_ok_iff] at h
  obtain ⟨⟨result, _⟩, hact, h⟩ := h
  obtain ⟨store, -, rfl⟩ := act_eq_ok_iff.mp hact
  cases h
  simp [Task.work]

theorem work_le_of_beginHash {s s' : Session K} {table name : String} {key : Option K}
    (h : s.beginHash table name key = .ok s') : s'.work ≤ s.work := by
  refine work_le_of_withTable (Nat.le_refl _) (fun t h => ?_) h
  refine work_le_of_withHandle (fun e h => ?_) h
  simp only [bind_eq_ok_iff] at h
  obtain ⟨⟨result, _⟩, hact, h⟩ := h
  obtain ⟨store, -, rfl⟩ := act_eq_ok_iff.mp hact
  cases h
  simp

theorem work_le_of_beginUnhash {s s' : Session K} {table name : String}
    (h : s.beginUnhash table name = .ok s') : s'.work ≤ s.work := by
  refine work_le_of_withTable (Nat.le_refl _) (fun t h => ?_) h
  refine work_le_of_withHandle (fun e h => ?_) h
  simp only [bind_eq_ok_iff] at h
  obtain ⟨⟨result, _⟩, hact, h⟩ := h
  obtain ⟨store, -, rfl⟩ := act_eq_ok_iff.mp hact
  split at h <;> cases h <;> simp [Task.work]

theorem work_le_of_beginLookup {s s' : Session K} {table : String} {key : K}
    {target : Option String} (h : s.beginLookup table key target = .ok s') :
    s'.work ≤ s.work := by
  refine work_le_of_withTable (Nat.le_refl _) (fun t h => ?_) h
  simp only [bind_eq_ok_iff] at h
  obtain ⟨⟨result, _⟩, hact, h⟩ := h
  obtain ⟨store, -, rfl⟩ := act_eq_ok_iff.mp hact
  split at h
  · cases h
    simp
  · simp only [bind_eq_ok_iff] at h
    obtain ⟨info, -, h⟩ := h
    split at h <;> cases h <;> simp [Task.work]

theorem work_le_of_beginRemove {s s' : Session K} {table : String} {key : K}
    (h : s.beginRemove table key = .ok s') : s'.work ≤ s.work := by
  refine work_le_of_withTable (Nat.le_refl _) (fun t h => ?_) h
  simp only [bind_eq_ok_iff] at h
  obtain ⟨⟨result, _⟩, hact, h⟩ := h
  obtain ⟨store, -, rfl⟩ := act_eq_ok_iff.mp hact
  split at h
  · cases h
    simp
  · simp only [bind_eq_ok_iff] at h
    obtain ⟨⟨result, _⟩, hact, h⟩ := h
    obtain ⟨store, -, rfl⟩ := act_eq_ok_iff.mp hact
    split at h <;> cases h <;> simp [Task.work]

theorem work_le_of_beginTraverse {s s' : Session K} {table : String}
    {hold unhash : Selection K} {target : String}
    (h : s.beginTraverse table hold unhash target = .ok s') : s'.work ≤ s.work := by
  refine work_le_of_withTable (Nat.le_refl _) (fun t h => ?_) h
  simp only [bind_eq_ok_iff] at h
  obtain ⟨buckets, -, h⟩ := h
  cases h
  simp [Task.work]

theorem work_foldl_emit {α : Type} (event : α → Event K) (items : List α) (s : Session K) :
    (items.foldl (fun s item => s.emit (event item)) s).work = s.work := by
  induction items generalizing s with
  | nil => rfl
  | cons item items ih => rw [List.foldl_cons, ih, work_emit]

theorem work_le_of_beginSurvey {s s' : Session K} {table : String} {hold : Selection K}
    {target : String} (h : s.beginSurvey table hold target = .ok s') : s'.work ≤ s.work := by
  refine work_le_of_withTable (Nat.le_refl _) (fun t h => ?_) h
  simp only [bind_eq_ok_iff] at h
  obtain ⟨buckets, -, ⟨visits, _⟩, hact, h⟩ := h
  obtain ⟨store, -, rfl⟩ := act_eq_ok_iff.mp hact
  cases h
  simp [Task.work, work_foldl_emit (fun visit : Visit (Item K) => .read visit.value visit.hash)]

theorem work_le_of_beginChains {s s' : Session K} {table : String}
    (h : s.beginChains table = .ok s') : s'.work ≤ s.work := by
  refine work_le_of_withTable (Nat.le_refl _) (fun t h => ?_) h
  simp only [bind_eq_ok_iff] at h
  obtain ⟨buckets, -, ⟨lengths, _⟩, hlengths, ⟨visits, _⟩, hvisits, h⟩ := h
  obtain ⟨store, -, rfl⟩ := act_eq_ok_iff.mp hlengths
  obtain ⟨store, -, rfl⟩ := act_eq_ok_iff.mp hvisits
  cases h
  simp

theorem work_le_of_beginDropTable {s s' : Session K} {name : String}
    (h : s.beginDropTable name = .ok s') : s'.work ≤ s.work := by
  unfold beginDropTable at h
  split at h
  · cases h
    simp
  · rw [work_of_retire h]
    simp [Task.work]

/-- Beginning a step uses up a part of its weight. -/
theorem work_lt_of_begin {s s' : Session K} {step : Step K} (h : s.begin step = .ok s') :
    s'.work < s.work + step.weight := by
  have enough : ∀ {other : Step K}, s'.work ≤ s.work → s'.work < s.work + other.weight :=
    fun {other} hle => by have := other.weight_pos; omega
  cases step with
  | malformed needs complaint =>
    cases h
    exact enough (Nat.le_of_eq (work_beginMalformed s complaint needs))
  | table name strategy capacity => exact enough (work_le_of_beginTable h)
  | create name item hook =>
    have := work_of_beginCreate h
    simp only [Step.weight]
    omega
  | hold name target => exact enough (work_le_of_beginHold h)
  | put name =>
    simp only [begin] at h
    refine enough (work_le_of_takeHandle (fun e handles h => ?_) h)
    cases h
    simp [Task.work]
  | drop name =>
    simp only [begin] at h
    refine enough (work_le_of_takeHandle (fun e handles h => ?_) h)
    cases h
    simp [Task.work]
  | info name =>
    refine enough (work_le_of_withHandle (fun e h => ?_) h)
    simp only [bind_eq_ok_iff] at h
    obtain ⟨info, -, h⟩ := h
    cases h
    simp
  | same name other =>
    refine enough (work_le_of_withHandle (fun e h => ?_) h)
    refine work_le_of_withHandle (fun f h => ?_) h
    cases h
    simp
  | hash table name key => exact enough (work_le_of_beginHash h)
  | unhash table name => exact enough (work_le_of_beginUnhash h)
  | lookup table key target => exact enough (work_le_of_beginLookup h)
  | remove table key => exact enough (work_le_of_beginRemove h)
  | fill table items cut hook =>
    have hle : s'.work ≤ items.length * (1 + Step.totalWeight hook) + s.work := by
      refine work_le_of_withTable (by omega) (fun t h => ?_) h
      cases h
      simp [Task.work]
    simp only [Step.weight]
    omega
  | traverse table hold unhash target => exact enough (work_le_of_beginTraverse h)
  | survey table hold target => exact enough (work_le_of_beginSurvey h)
  | chains table => exact enough (work_le_of_beginChains h)
  | stat table =>
    refine enough (work_le_of_withTable (Nat.le_refl _) (fun t h => ?_) h)
    simp only [bind_eq_ok_iff] at h
    obtain ⟨stat, -, h⟩ := h
    cases h
    simp
  | showHandle name long =>
    refine enough (work_le_of_withHandle (fun e h => ?_) h)
    simp only [bind_eq_ok_iff] at h
    obtain ⟨shown, -, h⟩ := h
    cases h
    simp
  | showTable table long =>
    refine enough (work_le_of_withTable (Nat.le_refl _) (fun t h => ?_) h)
    simp only [bind_eq_ok_iff] at h
    obtain ⟨table, -, h⟩ := h
    cases h
    simp
  | dropTable name => exact enough (work_le_of_beginDropTable h)

end HashIndex.Script.Session
