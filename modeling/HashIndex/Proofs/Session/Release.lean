import HashIndex.Proofs.Session.References
import HashIndex.Proofs.Session.Stack

/-!
# Putting references

To put a reference is to count it no more, or to destroy the element if there is no other reference.
The value goes to its release then, at once and only then, and what the release does goes on top of
the tasks. So references that tables had are put one after the other, and the next one waits for
everything that the release of the one before leads to.

## Main definitions

* `Task.puts?`, `Task.afterPut`: the reference that a task is to put, and what is left to do then.
* `Session.LastReference`: there is no other reference to an element.
* `Session.Puts`: a reference is put.
* `Session.Releases`: references are put in order, with anything in between.

## Main statements

* `Session.Reachable.puts`: a task that is to put a reference does so.
* `Session.Above.exists_releases`: a task that is to release references does so in their order.
-/

namespace HashIndex.Script

variable {K : Type}

def Task.puts? : Task K → Option ElementId
  | .release (e :: _) | .drop e | .put e => some e
  | _ => none

/-- What a task leaves to be done when it has put a reference, which was the last one or not. -/
def Task.afterPut (last : Bool) : Task K → List (Task K)
  | .release (_ :: elements) => [.release elements]
  | .put _ => [.answer (.flag last)]
  | _ => []

namespace Session

variable {s s' s₁ : Session K} {l : Ledger (Item K) K} {e : ElementId} {task : Task K}
  {tasks base : List (Task K)} {es : List ElementId} {calls : List (Call (Item K) K)}

/-- A reference that somebody has is the last one: the element is in no table, and there is no other
handle and no other reference that a table had and that is to be put. -/
def LastReference (s : Session K) (e : ElementId) : Prop :=
  ¬s.store.Linked e ∧ s.handleList.count e + s.pendingList.count e = 1

/-- What happens when the value of an element is handed to its release. -/
def farewell (x : Element (Item K)) : Event K :=
  match x.release with
  | .drop => .dropped x.value.label
  | .announce strategy => .freed strategy x.value.label

/-- What the release of an element leaves to be done before everything else. -/
def afterFarewell (s : Session K) (e : ElementId) (x : Element (Item K)) : List (Task K) :=
  match x.release with
  | .drop => []
  | .announce _ => [.hook x.value.label (hookOf e s.hooks)]

/-- A reference is put, and there is a rest to be done, which may depend on whether it was the last
one. The last one destroys the element and hands its value to the release. -/
inductive Puts (s : Session K) (e : ElementId) (rest : Bool → List (Task K)) : Session K → Prop
  | last {x : Element (Item K)} (hx : s.store.heap.get? e = some x) (hlast : s.LastReference e) :
    Puts s e rest
      { s with
        store := { s.store with heap := s.store.heap.free e }
        hooks := withoutHook e s.hooks
        tasks := s.afterFarewell e x ++ rest true
        events := farewell x :: s.events }
  | more {x : Element (Item K)} (hx : s.store.heap.get? e = some x) (hmore : ¬s.LastReference e) :
    Puts s e rest
      { s with
        store := { s.store with heap := s.store.heap.write e { x with count := x.count - 1 } }
        tasks := rest false }

theorem adopt_eq {store : Store (Item K) K} (hjournal : store.journal = []) :
    s.adopt store = { s with store := store } := by
  obtain ⟨heap, tables, locks, journal⟩ := store
  obtain rfl : journal = [] := hjournal
  rfl

theorem bury_some (s : Session K) (e : ElementId) (x : Element (Item K)) :
    s.bury e (some x) = { s with
      hooks := withoutHook e s.hooks
      tasks := s.afterFarewell e x ++ s.tasks
      events := farewell x :: s.events } := by
  unfold bury afterFarewell farewell
  dsimp only
  cases x.release <;> rfl

/-- The count of an element tells whether a reference is the last one. -/
theorem Sound.count_eq_one_iff (hs : s.Sound l []) {x : Element (Item K)}
    (hx : s.store.heap.get? e = some x) (he : e ∈ s.handleList ∨ e ∈ s.pendingList) :
    x.count = 1 ↔ s.LastReference e := by
  have hpos : 0 < s.handleList.count e + s.pendingList.count e := by
    rcases he with he | he <;> have hcount := List.count_pos_iff.mpr he <;> omega
  rw [LastReference, ← hs.agrees.wellFormed.hashed e x hx, hs.count_eq hx]
  cases x.isHashed <;> simp
  omega

/-- What is done to the store when a reference is put. -/
theorem Sound.put_cases (hs : s.Sound l []) (he : e ∈ s.handleList ∨ e ∈ s.pendingList) :
    ∃ x, s.store.heap.get? e = some x ∧
      ((s.LastReference e ∧
          s.store.put e = .ok (some x, { s.store with heap := s.store.heap.free e })) ∨
        ¬s.LastReference e ∧ s.store.put e = .ok (none, { s.store with
          heap := s.store.heap.write e { x with count := x.count - 1 } })) := by
  obtain ⟨a, ha⟩ := hs.held (he.imp_right .inl)
  obtain ⟨x, hx⟩ := hs.exists_element ha
  have hlast := hs.count_eq_one_iff hx he
  refine ⟨x, hx, ?_⟩
  simp only [← hlast, Store.put, Heap.read_eq hx, Fault.ok_bind]
  have hpos := hs.count_pos hx
  rcases hcount : x.count with _ | _ | n
  · omega
  · have hnobody := (hs.agrees.wellFormed.unlinked e x hx (hlast.mp hcount).1).1
    simp only [hnobody, hs.idle, ne_eq, not_true_eq_false, if_false, Fault.pure_eq_ok]
    exact .inl ⟨trivial, trivial⟩
  · exact .inr ⟨by omega, rfl⟩

theorem mem_handleList_or_of_puts? (htasks : s.tasks = task :: tasks)
    (hputs : task.puts? = some e) : e ∈ s.handleList ∨ e ∈ s.pendingList := by
  unfold handleList pendingList
  rw [htasks, List.flatMap_cons, List.flatMap_cons]
  unfold Task.puts? at hputs
  split at hputs <;> simp_all [Task.handles, Task.pending]

theorem perform_of_puts? (s : Session K) (hputs : task.puts? = some e) :
    s.perform task = s.act (fun store => store.put e) >>= fun (destroyed, s) =>
      .ok ({ s with tasks := task.afterPut destroyed.isSome ++ s.tasks }.bury e destroyed) := by
  unfold Task.puts? at hputs
  split at hputs <;> cases hputs <;> rfl

/-- A task that is to put a reference does so: the element is destroyed if and only if it was the
last reference. -/
theorem Reachable.puts (h : Reachable calls s) (htasks : s.tasks = task :: tasks)
    (hputs : task.puts? = some e) :
    ∃ s', { s with tasks := tasks }.perform task = .ok s' ∧
      s.Puts e (fun last => task.afterPut last ++ tasks) s' := by
  obtain ⟨-, l, -, -, hs⟩ := h.sound
  rw [perform_of_puts? _ hputs]
  obtain ⟨x, hx, ⟨hlast, hput⟩ | ⟨hmore, hput⟩⟩ :=
    hs.put_cases (mem_handleList_or_of_puts? htasks hputs)
  · refine ⟨_, ?_, .last hx hlast⟩
    rw [act_eq _ _ hput, Fault.ok_bind, adopt_eq (by exact hs.settled)]
    exact congrArg Except.ok (bury_some _ _ _)
  · refine ⟨_, ?_, .more hx hmore⟩
    rw [act_eq _ _ hput, Fault.ok_bind, adopt_eq (by exact hs.settled)]
    rfl

/-! ## References that tables had -/

/-- The references that a table had to elements are put one after the other while the tasks `base`
wait. Anything may happen before the first one, between two of them and after the last one. -/
inductive Releases (base : List (Task K)) : List ElementId → Session K → Session K → Prop
  | nil {s s₁ : Session K} (hbefore : Above (.release [] :: base) s s₁)
    (htasks : s₁.tasks = .release [] :: base) :
    Releases base [] s { s₁ with tasks := base }
  | cons {s s₁ s₂ s₃ : Session K} {e : ElementId} {es : List ElementId}
    (hbefore : Above (.release (e :: es) :: base) s s₁)
    (htasks : s₁.tasks = .release (e :: es) :: base)
    (hput : s₁.Puts e (fun _ => .release es :: base) s₂) (hrest : Releases base es s₂ s₃) :
    Releases base (e :: es) s s₃

/-- The references that a task is to release are put in their order before anything below it is
done. -/
theorem Above.exists_releases (habove : Above base s s') (h : Reachable calls s)
    (hrelease : .release es :: base <:+ s.tasks) (hdone : s'.tasks = base) :
    ∃ s₁, Releases base es s s₁ ∧ s₁.tasks = base ∧ Above base s s₁ ∧ Above base s₁ s' := by
  induction es generalizing s calls with
  | nil =>
    obtain ⟨s₁, s₂, hbefore, htasks, hperform, hrest⟩ := habove.exists_resume h hrelease hdone
    obtain rfl : { s₁ with tasks := base } = s₂ := Except.ok.inj hperform
    exact ⟨_, .nil hbefore htasks, rfl, hbefore.resume htasks hperform, hrest⟩
  | cons e es ih =>
    obtain ⟨s₁, s₂, hbefore, htasks, hperform, hrest⟩ := habove.exists_resume h hrelease hdone
    obtain ⟨calls₁, h₁⟩ := hbefore.reachable h
    obtain ⟨s₂', hok, hput⟩ := h₁.puts htasks rfl
    obtain rfl := Except.ok.inj (hperform.symm.trans hok)
    have h₂ := h₁.perform htasks hperform
    obtain ⟨s₃, hreleases, hdone₃, hbetween, hrest₃⟩ := ih hrest h₂ (by
      cases hput with
      | last => exact List.suffix_append _ _
      | more => exact List.suffix_refl _)
    exact ⟨s₃, .cons hbefore htasks hput hreleases, hdone₃,
      (hbefore.resume htasks hperform).trans hbetween, hrest₃⟩

/-- So they are before any further work on the task that follows. -/
theorem Above.exists_releases_above (habove : Above base s s') (h : Reachable calls s)
    (htasks : s.tasks = .release es :: task :: base) (hdone : s'.tasks = base) :
    ∃ s₁, Releases (task :: base) es s s₁ ∧ s₁.tasks = task :: base ∧
      Above (task :: base) s s₁ ∧ Above base s₁ s' := by
  have hrelease : .release es :: task :: base <:+ s.tasks := htasks ▸ List.suffix_refl _
  obtain ⟨s₁, s₂, hbefore, htasks, hperform, hrest⟩ :=
    habove.exists_resume h ((List.suffix_cons _ _).trans hrelease) hdone
  obtain ⟨s₃, hreleases, hdone₃, hbetween, hafter⟩ := hbefore.exists_releases h hrelease htasks
  exact ⟨s₃, hreleases, hdone₃, hbetween, (hafter.resume htasks hperform).trans hrest⟩

end Session

end HashIndex.Script
