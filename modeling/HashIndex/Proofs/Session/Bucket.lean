import HashIndex.Proofs.Call.Detach
import HashIndex.Proofs.Session.Release

/-!
# Work on one bucket

Traversals and drops of tables work on one bucket at a time. The elements that are in the bucket at
that moment are visited or taken out, and nothing else happens meanwhile.

## Main statements

* `Session.Reachable.walk`: what visiting one bucket does.
* `Session.Reachable.drain`: what draining one bucket does.
-/

namespace HashIndex.Script.Session

variable {K : Type} {s : Session K} {t : TableId} {base : List (Task K)} {i n number : Nat}
  {buckets : List Nat} {kept : List (String × ElementId)} {hold unhash : Selection K}
  {target : String} {calls : List (Call (Item K) K)}

theorem begin_traverse {name : String} {table : Table (Item K) K}
    (hfind : s.tables.find? name = some t) (ht : s.store.table? t = some table)
    (hold unhash : Selection K) (target : String) :
    s.begin (.traverse name hold unhash target) =
      .ok (s.push (.traverse t (List.range table.buckets.size) 0 [] hold unhash target)) := by
  simp only [Session.begin, beginTraverse, withTable, hfind, Store.bucketRange_eq ht,
    Fault.ok_bind, Fault.pure_eq_ok]

/-- A bit of a traversal is to visit the elements that are in the next bucket at that moment, and
nothing else happens meanwhile. -/
theorem Reachable.walk (h : Reachable calls s)
    (htasks : s.tasks = .traverse t (i :: buckets) number kept hold unhash target :: base) :
    ∃ visits store,
      s.store.walkBucket t i number (fun n item => ⟨hold n item, unhash n item⟩) =
        .ok ⟨visits, Ledger.takenOut visits, store⟩ ∧
      s.store.Walks t i number (fun n item => ⟨hold n item, unhash n item⟩) visits store ∧
      { s with tasks := base }.perform
        (.traverse t (i :: buckets) number kept hold unhash target) = .ok { s with
          store := store
          tasks := .release (Ledger.takenOut visits) :: .traverse t buckets
            (number + visits.length) ((keptBy target visits).reverse ++ kept) hold unhash target ::
              base
          events := (visits.map fun v => .visited v.value v.hash).reverse ++ s.events } := by
  obtain ⟨-, l, -, -, hs⟩ := h.sound
  obtain ⟨r, hr, hbuckets⟩ := hs.fits _ (htasks ▸ List.mem_cons_self)
  obtain ⟨visits, l', hwalk⟩ := Ledger.exists_walk hs.agrees.covered hr
    (hbuckets i List.mem_cons_self) number fun n item => ⟨hold n item, unhash n item⟩
  obtain ⟨store, hok, hagrees, -⟩ := hs.agrees.walkBucket hs.idle hwalk
  have hjournal : store.journal = [] := (Store.journal_of_walkBucket hok).trans hs.settled
  refine ⟨visits, store, hok, hs.agrees.walks hwalk hagrees, ?_⟩
  simp only [Session.perform, performTraverse]
  rw [act_eq (visits, Ledger.takenOut visits) store, Fault.ok_bind,
    foldl_emit fun visit : Visit (Item K) => .visited visit.value visit.hash,
    adopt_eq hjournal]
  · rfl
  · simp only [hok, Fault.ok_bind, Fault.pure_eq_ok]

/-- A bit of a drop is to take all elements out of the next bucket, and nothing else happens
meanwhile. -/
theorem Reachable.drain (h : Reachable calls s)
    (htasks : s.tasks = .drain t (i :: buckets) n :: base) :
    ∃ released store, s.store.drainBucket t i = .ok (released, store) ∧
      s.store.members? t i = some released ∧ s.store.Detaches t i [] released store ∧
      { s with tasks := base }.perform (.drain t (i :: buckets) n) = .ok { s with
        store := store
        tasks := .release released :: .drain t buckets (n + released.length) :: base } := by
  obtain ⟨-, l, -, -, hs⟩ := h.sound
  obtain ⟨r, hr, hbuckets⟩ := hs.fits _ (htasks ▸ List.mem_cons_self)
  obtain ⟨reply, l', hcall⟩ := Ledger.exists_call hs.agrees.covered (c := .drain t i)
    ⟨r, hr, hbuckets i List.mem_cons_self⟩
  obtain ⟨⟨released, _⟩, hdrain, -⟩ := Option.bind_eq_some_iff.mp hcall
  obtain ⟨store, hok, hagrees, -⟩ := hs.agrees.drainBucket hs.idle hdrain
  obtain ⟨hmembers, hdetaches⟩ := hs.agrees.detaches_of_drain hdrain hagrees
  have hjournal : store.journal = [] := (Store.journal_of_drainBucket hok).trans hs.settled
  refine ⟨released, store, hok, hmembers, hdetaches, ?_⟩
  simp only [Session.perform, performDrain]
  rw [act_eq released store hok, Fault.ok_bind, adopt_eq hjournal]
  rfl

/-- When all buckets are drained, nothing is left in the table. -/
theorem Reachable.drain_nil (h : Reachable calls s) (htasks : s.tasks = .drain t [] n :: base) :
    (∃ table, s.store.table? t = some table ∧ table.entries = 0) ∧
      (∀ e x, s.store.heap.get? e = some x → x.owner ≠ .table t) ∧
      { s with tasks := base }.perform (.drain t [] n) = .ok { s with
        store := s.store.freeTable t
        tasks := base
        events := .noted (.drained n) :: s.events } := by
  obtain ⟨-, l, -, -, hs⟩ := h.sound
  have hmem : .drain t [] n ∈ s.tasks := htasks ▸ List.mem_cons_self
  obtain ⟨r, hr, -⟩ := hs.fits _ hmem
  obtain ⟨⟨-, hcovered⟩, -⟩ := hs.drained t [] n hmem
  have hempty : r.entries = [] := by
    rw [List.eq_nil_iff_forall_not_mem]
    intro entry hentry
    cases hcovered r hr entry hentry
  obtain ⟨table, ht, htable⟩ := hs.agrees.exists_table hr
  refine ⟨⟨table, ht, by rw [htable.entries, hempty]; rfl⟩, fun e x hx howner => ?_, ?_⟩
  · obtain ⟨r', hr', he⟩ := hs.agrees.owned e x t hx howner
    obtain rfl := Option.some.inj (hr.symm.trans hr')
    simp [Roster.elements, hempty] at he
  · have hjournal := hs.settled
    simp only [Session.perform, performDrain, adopt, Store.note, Store.freeTable, hjournal]
    rfl

end HashIndex.Script.Session
