import HashIndex.Proofs.Call.Lifetime
import HashIndex.Proofs.Session.Release

/-!
# Elements and tables to their end

An element is destroyed when the last reference to it is put, and at no other time. A table is known
to somebody as long as it is there, so dropping all handles and all tables, as is done at the end of
a script, leaves nothing.

## Main definitions

* `Session.Tracks`: every table has a name or is being drained.
* `Session.Dropped`: nothing is left that refers to an element.
* `Session.Finishing`: all that is left to be done ends with dropping everything.

## Main statements

* `Session.Reachable.lasts`: only putting the last reference destroys an element.
* `Session.Reachable.tracks`: no table gets lost.
* `Session.Reachable.heap_eq_none`: without references and tables there are no elements.
* `Session.Reachable.dropped_of_finish`: dropping everything that has a name leaves nothing.
-/

namespace HashIndex.Script.Session

variable {K : Type} {s s' : Session K} {l l' : Ledger (Item K) K} {e : ElementId} {t : TableId}
  {x : Element (Item K)} {task : Task K} {tasks : List (Task K)} {step : Step K}
  {calls : List (Call (Item K) K)} {replies : List (Reply (Item K))}

theorem put_not_mem_callsOf (s : Session K) (step : Step K) (e : ElementId) :
    Call.put e ∉ s.callsOf step := by
  cases step <;> simp only [callsOf] <;> repeat' split
  all_goals simp

theorem put_not_mem_callsOfTask (s : Session K) (hputs : task.puts? = none) (e : ElementId) :
    Call.put e ∉ s.callsOfTask task := by
  unfold callsOfTask
  split
  case h_1 label steps =>
    split
    · simp
    · cases steps with
      | nil => simp
      | cons step steps => simpa using s.put_not_mem_callsOf step e
  case h_2 elements => cases elements <;> simp_all [Task.puts?]
  all_goals simp_all [Task.puts?]

/-! ## How long elements last -/

/-- Calls that put no reference leave all elements alone. -/
theorem Sound.lasts (hs : s.Sound l []) (hx : s.store.heap.get? e = some x)
    (hcalls : l.callAll calls = some (replies, l')) (hput : .put e ∉ calls)
    (hs' : s'.Sound l' []) : ∃ y, s'.store.heap.get? e = some y ∧ y.value = x.value := by
  obtain ⟨a, ha, hxa⟩ := hs.agrees.exists_account hx
  have hkept : ∃ a', l'.account? e = some a' ∧ a'.value = x.value := by
    refine Ledger.callAll_keeps (motive := fun l => ∃ a', l.account? e = some a' ∧
      a'.value = x.value) hs.agrees hs.idle hcalls ⟨a, ha, hxa.value.symm⟩ ?_
    rintro c hc l reply l' ⟨a₁, ha₁, hvalue⟩ hcovered hcall
    obtain ⟨rfl, -⟩ | ⟨a₂, ha₂, hsame⟩ := (Ledger.effect_of_call hcovered hcall).exists_account ha₁
    · exact absurd hc hput
    · exact ⟨a₂, ha₂, hsame.trans hvalue⟩
  obtain ⟨a', ha', hvalue⟩ := hkept
  obtain ⟨y, hy, hya⟩ := hs'.agrees.exists_element ha'
  exact ⟨y, hy, hya.value.trans hvalue⟩

/-- An element lasts whatever happens, unless the last reference to it is put. -/
theorem Reachable.lasts (h : Reachable calls s) (hx : s.store.heap.get? e = some x)
    (hmoves : Moves [] s s') :
    (∃ y, s'.store.heap.get? e = some y ∧ y.value = x.value) ∨
      s'.store.heap.get? e = none ∧ s.LastReference e ∧
        ∃ task tasks, s.tasks = task :: tasks ∧ task.puts? = some e ∧
          { s with tasks := tasks }.perform task = .ok s' := by
  obtain ⟨-, l, -, -, hs⟩ := h.sound
  cases hmoves with
  | begin step _ hbegin =>
    obtain ⟨replies, l', hcalls, -, hs'⟩ := (hbegin ▸ hs.begin step).exists_of_ok
    exact .inl (hs.lasts hx hcalls (s.put_not_mem_callsOf step e) hs')
  | perform task tasks _ htasks hperform =>
    cases hputs : task.puts? with
    | none =>
      obtain ⟨replies, l', hcalls, -, hs'⟩ := (hperform ▸ hs.perform htasks).exists_of_ok
      exact .inl (hs.lasts hx hcalls (put_not_mem_callsOfTask _ hputs e) hs')
    | some f =>
      obtain ⟨_, hok, hput⟩ := h.puts htasks hputs
      obtain rfl := Except.ok.inj (hperform.symm.trans hok)
      by_cases hf : e = f
      · subst hf
        cases hput with
        | last _ hlast =>
          exact .inr ⟨Heap.get?_free_self _ _, hlast, task, tasks, htasks, hputs, hperform⟩
        | more hx' =>
          obtain rfl := Option.some.inj (hx.symm.trans hx')
          exact .inl ⟨_, (Heap.get?_write hx _ e).trans (if_pos rfl), rfl⟩
      · left
        cases hput with
        | last => exact ⟨x, (Heap.get?_free_of_ne (Ne.symm hf)).trans hx, rfl⟩
        | more => exact ⟨x, (Heap.get?_write_of_ne _ (Ne.symm hf)).trans hx, rfl⟩

/-! ## Who knows of a table -/

theorem createTable_not_mem_callsOf {strategy : Strategy (Item K) K} {capacity : Capacity}
    (s : Session K) (hstep : ∀ name strategy capacity, step ≠ .table name strategy capacity) :
    Call.createTable strategy capacity ∉ s.callsOf step := by
  cases step <;> simp only [callsOf] <;> repeat' split
  all_goals simp_all

/-- Calls that make no table find all tables there that are there afterwards. -/
theorem Sound.exists_table_before (hs : s.Sound l [])
    (hcalls : l.callAll calls = some (replies, l'))
    (hcreate : ∀ strategy capacity, .createTable strategy capacity ∉ calls)
    (hs' : s'.Sound l' []) (ht : ∃ table, s'.store.table? t = some table) :
    ∃ table, s.store.table? t = some table := by
  rw [hs.agrees.exists_table_iff]
  rw [hs'.agrees.exists_table_iff] at ht
  refine Ledger.callAll_keeps (motive := fun l' => (∃ r, l'.roster? t = some r) →
    ∃ r, l.roster? t = some r) hs.agrees hs.idle hcalls id ?_ ht
  rintro c hc l₁ reply l₂ hbefore hcovered hcall ⟨r', hr'⟩
  obtain ⟨r, gone, hr, -⟩ | ⟨strategy, capacity, rfl, -⟩ | ⟨f, key, r, a, rfl, -, hr, -⟩ :=
    (Ledger.effect_of_call hcovered hcall).roster hr'
  · exact hbefore ⟨r, hr⟩
  · exact absurd hc (hcreate strategy capacity)
  · exact hbefore ⟨r, hr⟩

/-- Every table has a name or is being drained. -/
def Tracks (s : Session K) : Prop := ∀ t, (∃ table, s.store.table? t = some table) → s.Claims t

theorem tables_of_beginTable {name : String} {strategy : Strategy (Item K) K}
    {capacity : Capacity} (h : s.beginTable name strategy capacity = .ok s') :
    s'.tables = (s.tables.insert name (s.store.createTable strategy capacity).1).2 := by
  obtain ⟨⟨⟨t, stat⟩, _⟩, hact, h⟩ := Fault.bind_eq_ok_iff.mp h
  obtain ⟨store, hcreate, rfl⟩ := act_eq_ok_iff.mp hact
  obtain ⟨stat', -, hcreate⟩ := Fault.bind_eq_ok_iff.mp hcreate
  obtain ⟨heq, -⟩ := Prod.mk.inj (Except.ok.inj hcreate)
  obtain ⟨rfl, -⟩ := Prod.mk.inj heq
  dsimp only at h
  split at h
  · cases h
    rfl
  · obtain ⟨table, -, rfl⟩ := exists_of_retire h
    rfl

/-- Making a table loses none: it gets a name, and the one that it replaces is drained. -/
theorem Sound.tracks_beginTable (hs : s.Sound l []) (htracks : s.Tracks) {name : String}
    {strategy : Strategy (Item K) K} {capacity : Capacity}
    (hbegin : s.beginTable name strategy capacity = .ok s') : s'.Tracks := by
  obtain ⟨replies, l', hcalls, -, hs'⟩ :=
    (hbegin ▸ hs.beginTable name strategy capacity).exists_of_ok
  obtain ⟨hname, -, -⟩ := hs.agrees.createTable strategy capacity
  obtain ⟨-, rfl⟩ := Prod.mk.inj (Option.some.inj hcalls)
  intro t ht
  obtain ⟨r, hr⟩ := hs'.agrees.exists_table_iff.mp ht
  rw [(l.roster?_createTable strategy capacity).2] at hr
  split at hr
  next heq =>
    left
    rw [tables_of_beginTable hbegin, hname, heq]
    exact Directory.mem_values_insert _ _ _
  next => exact (extends_of_beginTable hbegin).claims t
            (htracks t (hs.agrees.exists_table_iff.mpr ⟨r, hr⟩))

theorem Sound.tracks_begin (hs : s.Sound l []) (htracks : s.Tracks)
    (hbegin : s.begin step = .ok s') : s'.Tracks := by
  by_cases hstep : ∀ name strategy capacity, step ≠ .table name strategy capacity
  · obtain ⟨replies, l', hcalls, -, hs'⟩ := (hbegin ▸ hs.begin step).exists_of_ok
    exact fun t ht => (extends_of_begin hs.tablesInOrder hbegin).claims t (htracks t
      (hs.exists_table_before hcalls (fun _ _ => s.createTable_not_mem_callsOf hstep) hs' ht))
  · push Not at hstep
    obtain ⟨name, strategy, capacity, rfl⟩ := hstep
    exact hs.tracks_beginTable htracks hbegin

theorem claims_of_pop (htasks : s.tasks = task :: tasks) (h : s.Claims t) :
    Claims { s with tasks := tasks } t ∨ ∃ buckets n, task = .drain t buckets n := by
  obtain h | ⟨buckets, n, hmem⟩ := h
  · exact .inl (.inl h)
  · rw [htasks] at hmem
    rcases List.mem_cons.mp hmem with heq | hmem
    · exact .inr ⟨buckets, n, heq.symm⟩
    · exact .inl (.inr ⟨buckets, n, hmem⟩)

/-- A table is drained until it is forgotten. -/
theorem claims_of_performDrain {buckets : List Nat} {n : Nat}
    (h : s.performDrain t buckets n = .ok s') (ht : ∃ table, s'.store.table? t = some table) :
    s'.Claims t := by
  cases buckets with
  | nil =>
    cases h
    obtain ⟨table, ht⟩ := ht
    have hnone : (s.store.freeTable t).table? t = none := by
      by_cases hsize : t < s.store.tables.size <;>
        simp [Store.freeTable, Store.table?, hsize]
    rw [show (s.adopt ((s.store.freeTable t).note (.drained n))).store.table? t =
      (s.store.freeTable t).table? t from rfl, hnone] at ht
    cases ht
  | cons bucket buckets =>
    obtain ⟨⟨released, _⟩, hact, h⟩ := Fault.bind_eq_ok_iff.mp h
    obtain ⟨store, -, rfl⟩ := act_eq_ok_iff.mp hact
    cases h
    exact .inr ⟨buckets, n + released.length, List.mem_cons_of_mem _ List.mem_cons_self⟩

theorem Sound.tracks_performHook (hs : s.Sound l []) (htracks : s.Tracks) {label : String}
    {steps : List (Step K)} (h : s.performHook label steps = .ok s') : s'.Tracks := by
  have hpush : (s.push (.hook label steps)).Tracks := fun t ht =>
    (extends_push s (.hook label steps)).claims t (htracks t ht)
  unfold Session.performHook at h
  split at h
  · cases h
    exact hpush
  · cases steps with
    | nil =>
      cases h
      exact htracks
    | cons step steps =>
      refine Sound.tracks_begin (s := s.push (.hook label steps))
        (Sound.push_plain _ hs fun _ => rfl) (fun t ht => ?_) h
      exact (extends_push s (.hook label steps)).claims t (htracks t ht)

theorem createTable_not_mem_callsOfTask {strategy : Strategy (Item K) K} {capacity : Capacity}
    (s : Session K) (htask : ∀ label steps, task ≠ .hook label steps) :
    Call.createTable strategy capacity ∉ s.callsOfTask task := by
  unfold callsOfTask
  split <;> simp_all

theorem Sound.tracks_perform (hs : s.Sound l []) (htracks : s.Tracks)
    (htasks : s.tasks = task :: tasks)
    (hperform : { s with tasks := tasks }.perform task = .ok s') : s'.Tracks := by
  by_cases htask : ∃ label steps, task = .hook label steps
  · obtain ⟨label, steps, rfl⟩ := htask
    refine Sound.tracks_performHook (hs.pop htasks).sound (fun t ht => ?_) hperform
    exact (claims_of_pop htasks (htracks t ht)).resolve_right (by simp)
  · push Not at htask
    obtain ⟨replies, l', hcalls, -, hs'⟩ := (hperform ▸ hs.perform htasks).exists_of_ok
    intro t ht
    have hbefore := hs.exists_table_before hcalls
      (fun _ _ => createTable_not_mem_callsOfTask _ htask) hs' ht
    obtain hclaims | ⟨buckets, n, rfl⟩ := claims_of_pop htasks (htracks t hbefore)
    · have hinOrder : Session.tables { s with tasks := tasks } |>.InOrder := hs.tablesInOrder
      exact (extends_of_perform hinOrder hperform).claims t hclaims
    · exact claims_of_performDrain hperform ht

/-- Every table has a name or is being drained. -/
theorem Reachable.tracks (h : Reachable calls s) : s.Tracks := by
  induction h with
  | initial =>
    rintro t ⟨table, ht⟩
    simp [Session.initial, Store.empty, Store.table?] at ht
  | begin h step hbegin ih =>
    obtain ⟨-, l, -, -, hs⟩ := h.sound
    exact hs.tracks_begin ih hbegin
  | perform h htasks hperform ih =>
    obtain ⟨-, l, -, -, hs⟩ := h.sound
    exact hs.tracks_perform ih htasks hperform
  | teardown _ ih => exact fun t ht => (extends_push _ _).claims t (ih t ht)
  | acknowledge _ ih => exact ih

/-! ## Dropping everything -/

/-- All handles and all tables have been dropped, and all references that tables had were put. -/
structure Dropped (s : Session K) : Prop where
  handles : s.handleList = []
  pending : s.pendingList = []
  tables : ∀ t, s.store.table? t = none

/-- Dropping everything that has a name is dropping everything. -/
theorem Reachable.dropped (h : Reachable calls s) (htasks : s.tasks = [])
    (hhandles : s.handles.values = []) (htables : s.tables.values = []) : s.Dropped := by
  refine ⟨by simp [handleList, hhandles, htasks], by simp [pendingList, htasks], fun t => ?_⟩
  rw [Option.eq_none_iff_forall_ne_some]
  intro table ht
  simpa [Claims, htables, htasks] using h.tracks t ⟨table, ht⟩

/-- Without references and tables there are no elements. -/
theorem Reachable.heap_eq_none (h : Reachable calls s) (hdropped : s.Dropped) (e : ElementId) :
    s.store.heap.get? e = none := by
  obtain ⟨-, l, -, -, hs⟩ := h.sound
  rw [Option.eq_none_iff_forall_ne_some]
  intro x hx
  have hcount := hs.count_eq hx
  have hpos := hs.count_pos hx
  rw [hdropped.handles, hdropped.pending] at hcount
  have hlinked : s.store.Linked e := by
    rw [← hs.agrees.wellFormed.hashed e x hx]
    by_contra hnot
    simp [hnot] at hcount
    omega
  obtain ⟨t, r, hr, -⟩ := Ledger.isLinked_iff.mp (hs.agrees.linked_iff.mp hlinked)
  obtain ⟨table, ht, -⟩ := hs.agrees.exists_table hr
  rw [hdropped.tables t] at ht
  cases ht

/-- Everything was dropped, or will be when all tasks are done. -/
def Finishing (s : Session K) : Prop :=
  [.teardown] <:+ s.tasks ∨ s.tasks = [] ∧ s.handles.values = [] ∧ s.tables.values = []

theorem finishing_of_performTeardown (htasks : s.tasks = []) (h : s.performTeardown = .ok s') :
    s'.Finishing := by
  unfold performTeardown at h
  split at h
  · cases h
    simp [Finishing, push, htasks]
  next hhandles =>
    split at h
    · obtain ⟨table, -, rfl⟩ := exists_of_retire h
      simp [Finishing, push, htasks]
    next htables =>
      cases h
      refine .inr ⟨htasks, ?_, ?_⟩
      · unfold Directory.takeFirst? at hhandles
        split at hhandles <;> simp_all [Directory.values]
      · unfold Directory.takeFirst? at htables
        split at htables <;> simp_all [Directory.values]

theorem Reachable.finishing_perform (h : Reachable calls s) (hfinishing : s.Finishing)
    (htasks : s.tasks = task :: tasks)
    (hperform : { s with tasks := tasks }.perform task = .ok s') : s'.Finishing := by
  obtain hsuffix | ⟨hnil, -⟩ := hfinishing
  · rw [htasks] at hsuffix
    obtain heq | hsuffix := List.suffix_cons_iff.mp hsuffix
    · obtain ⟨rfl, rfl⟩ := List.cons.inj heq
      exact finishing_of_performTeardown rfl hperform
    · exact .inl ((Moves.perform task tasks hsuffix htasks hperform).suffix h)
  · rw [htasks] at hnil
    cases hnil

theorem Reachable.finishing_run (h : Reachable calls s) (hfinishing : s.Finishing)
    (hrun : s.run = .ok s') : s'.Finishing := by
  refine (run_keeps (motive := fun s => (∃ calls, Reachable calls s) ∧ s.Finishing) hrun
    ⟨⟨calls, h⟩, hfinishing⟩ ?_).1.2
  rintro s₁ task tasks s₂ ⟨⟨calls₁, h₁⟩, hfinishing₁⟩ htasks hperform
  exact ⟨⟨_, h₁.perform htasks hperform⟩, h₁.finishing_perform hfinishing₁ htasks hperform⟩

/-- Whoever drops everything that has a name is left with nothing. -/
theorem Reachable.dropped_of_finish (h : Reachable calls s) (htasks : s.tasks = [])
    (hfinish : s.finish = .ok s') {calls' : List (Call (Item K) K)} (h' : Reachable calls' s')
    (hdone : s'.tasks = []) :
    s'.Dropped ∧ s'.handles.values = [] ∧ s'.tables.values = [] := by
  have hfinishing : (s.push .teardown).Finishing := .inl ⟨[], by simp [push, htasks]⟩
  obtain hsuffix | ⟨-, hhandles, htables⟩ := h.teardown.finishing_run hfinishing hfinish
  · simp [hdone] at hsuffix
  · exact ⟨h'.dropped hdone hhandles htables, hhandles, htables⟩

end HashIndex.Script.Session
