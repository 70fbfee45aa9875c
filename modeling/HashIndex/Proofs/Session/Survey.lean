import HashIndex.Proofs.Call.Survey
import HashIndex.Proofs.Session.Traversal

/-!
# Surveys at any time

A script may visit a table in either way at any time, also in a hook that runs while the same table
is visited, filled or emptied further out. As long as nothing is taken out, no hook can come in
between two buckets, so both ways see the table as it is at the beginning.

## Main statements

* `Session.Reachable.advances_traverse`: a traversal that takes nothing out goes through all buckets
  without a break.
* `Session.Reachable.surveys_agree`: both ways of visiting, and both counters, agree.
-/

namespace HashIndex.Script

variable {K : Type}

theorem keptBy_append (target : String) (visits visits' : List (Visit (Item K))) :
    keptBy target (visits ++ visits') = keptBy target visits ++ keptBy target visits' := by
  simp [keptBy]

namespace Session

variable {s s' : Session K} {t : TableId} {base : List (Task K)} {number : Nat}
  {buckets : List Nat} {kept : List (String × ElementId)} {hold : Selection K}
  {target name : String} {calls : List (Call (Item K) K)} {store : Store (Item K) K}
  {blocks : List (List (Visit (Item K)))}

/-- A traversal that takes nothing out goes through all buckets without a break. -/
theorem Reachable.advances_traverse (h : Reachable calls s)
    (htasks : s.tasks = .traverse t buckets number kept hold (fun _ _ => false) target :: base)
    (hvisits : Store.visitBuckets t (fun n item => ⟨hold n item, false⟩) buckets number s.store =
      .ok (blocks, [], store)) :
    Advances base s { s with
      store := store
      tasks := .traverse t [] (number + blocks.flatten.length)
        ((keptBy target blocks.flatten).reverse ++ kept) hold (fun _ _ => false) target :: base
      events := (blocks.flatten.map fun v => .visited v.value v.hash).reverse ++ s.events } := by
  induction buckets generalizing s number kept calls blocks with
  | nil =>
    cases hvisits
    have hsame : s = { s with
        tasks := .traverse t [] number kept hold (fun _ _ => false) target :: base } := by
      rw [← htasks]
    rw [hsame]
    exact .refl
  | cons i buckets ih =>
    obtain ⟨visits, store₁, hwalk, hwalks, hperform⟩ := h.walk htasks
    have hnone : Ledger.takenOut visits = [] := Ledger.takenOut_eq_nil fun v hv => by
      rw [hwalks.choice v hv]
    rw [hnone] at hwalk hperform
    simp only [Store.visitBuckets, hwalk, Store.putEach, Fault.ok_bind] at hvisits
    obtain ⟨⟨rest, losses, store₂⟩, hrest, hvisits⟩ := Fault.bind_eq_ok_iff.mp hvisits
    cases hvisits
    have h₁ := h.perform htasks hperform
    -- there are no references to be put before the next bucket
    have hfirst : Advances base s _ := .single ⟨_, base, List.suffix_refl _, htasks, hperform⟩
    have hsecond : Advances base _ _ :=
      hfirst.tail ⟨.release [], _, List.suffix_cons _ _, rfl, rfl⟩
    have hlast : Advances base s _ := hsecond.trans (ih (h₁.perform rfl rfl) rfl hrest)
    simpa only [List.flatten_cons, List.length_append, keptBy_append, List.reverse_append,
      List.map_append, List.append_assoc, Nat.add_assoc] using hlast

/-- A table is visited in both ways, at any time and also in a hook. Both visit the same `blocks` of
elements, one block for each bucket. In a script both say so in their events, keep the same
references, answer with the same number, and leave the same store, which differs from the one before
in these references only; and what the table says of itself is the number of the blocks and that of
the visits. -/
theorem Reachable.surveys_agree (h : Reachable calls s) {table : Table (Item K) K}
    (ht : s.store.table? t = some table) (hold : Selection K) :
    ∃ blocks store, s.store.Surveys t table hold blocks store ∧
      ∀ name target, s.tables.find? name = some t →
        s.begin (.survey name hold target) = .ok { s with
          store := store
          tasks := .keep (keptBy target blocks.flatten) ::
            .answer (.count blocks.flatten.length) :: s.tasks
          events := (blocks.flatten.map fun v => .read v.value v.hash).reverse ++ s.events } ∧
        (∃ s₁, s.begin (.traverse name hold (fun _ _ => false) target) = .ok s₁ ∧
          Advances s.tasks s₁ { s with
            store := store
            tasks := .keep (keptBy target blocks.flatten) ::
              .answer (.count blocks.flatten.length) :: s.tasks
            events := (blocks.flatten.map fun v => .visited v.value v.hash).reverse ++
              s.events }) ∧
        s.begin (.stat name) = .ok (s.reply (.stat ⟨blocks.length, blocks.flatten.length⟩)) := by
  obtain ⟨-, l, -, -, hs⟩ := h.sound
  obtain ⟨blocks, store, hsurveys⟩ := hs.agrees.surveys hs.idle ht hold
  refine ⟨blocks, store, hsurveys, fun name target hfind => ?_⟩
  have htraverse := begin_traverse hfind ht hold (fun _ _ => false) target
  refine ⟨?survey, ⟨_, htraverse, ?traverse⟩, ?stat⟩
  case survey =>
    have hjournal : store.journal = [] := hsurveys.lends.journal.trans hs.settled
    simp only [Session.begin, beginSurvey, withTable, hfind, Store.bucketRange_eq ht, Fault.ok_bind,
      act_eq _ _ hsurveys.reads, adopt_eq hjournal,
      foldl_emit fun visit : Visit (Item K) => .read visit.value visit.hash, Fault.pure_eq_ok]
    rfl
  case traverse =>
    have hbuckets := (h.begin _ htraverse).advances_traverse rfl hsurveys.visits
    rw [Nat.zero_add, List.append_nil] at hbuckets
    refine hbuckets.tail ⟨_, s.tasks, List.suffix_refl _, rfl, ?_⟩
    simp only [Session.perform, performTraverse, List.reverse_reverse]
    rfl
  case stat =>
    simp only [Session.begin, withTable, hfind, statOf, Store.table_eq ht, Fault.ok_bind,
      Fault.pure_eq_ok, hsurveys.blocks_length, hsurveys.entries]

/-! ## In a hook -/

/-- A script that links three elements, one of which nobody else has a reference to. -/
def crowdingScript : List (Step Nat) :=
  [.table "t" (.usual Item.key UInt32.ofNat (.announce "s") (.plain "")) .least,
    .create "a" ⟨"a", 7, 0⟩ [.stat "t"], .hash "t" "a" none, .drop "a",
    .create "b" ⟨"b", 8, 0⟩ [], .hash "t" "b" none, .create "c" ⟨"c", 40, 0⟩ [],
    .hash "t" "c" none]

/-- A hook of an element of the eighth bucket runs before the ninth bucket is visited. -/
theorem exists_reachable_between : ∃ (calls : List (Call (Item Nat) Nat)) (s : Session Nat),
    Reachable calls s ∧ s.tables.find? "t" = some 0 ∧ s.store.order 0 = [2, 1] ∧
      s.tasks.map (Task.uses 0) = [false, false, true] := by
  obtain ⟨calls, -, s, s₂, h, -, -, hnext, hbetween⟩ := exists_reachable_of_play 3 crowdingScript
    (fun s => s.begin (.traverse "t" (fun _ _ => false) (fun _ item => item.key = 7) "") >>=
      advance 4)
    (fun _ s => s.tables.find? "t" = some 0 ∧ s.store.order 0 = [2, 1] ∧
      s.tasks.map (Task.uses 0) = [false, false, true]) (by decide +kernel)
  obtain ⟨s₁, hbegin, hadvance⟩ := Fault.bind_eq_ok_iff.mp hnext
  obtain ⟨calls₂, h₂⟩ := (advances_of_advance hadvance).above.reachable (h.begin _ hbegin)
  exact ⟨calls₂, s₂, h₂, hbetween⟩

/-- In the hook both ways visit the elements `c` and `b`, in this order. -/
theorem Reachable.surveys_agree_of_crowding : ∃ (calls : List (Call (Item Nat) Nat))
    (s s₁ : Session Nat) (table : Table (Item Nat) Nat)
    (blocks : List (List (Visit (Item Nat)))) (store : Store (Item Nat) Nat),
      Reachable calls s ∧ s.tasks.map (Task.uses 0) = [false, false, true] ∧
      s.store.table? 0 = some table ∧ s.tables.find? "t" = some 0 ∧
      s.store.Surveys 0 table (fun n _ => n = 0) blocks store ∧
      blocks.flatten.map Visit.element = [2, 1] ∧
      s.begin (.traverse "t" (fun n _ => n = 0) (fun _ _ => false) "x") = .ok s₁ := by
  obtain ⟨calls, s, h, hfind, horder, htasks⟩ := exists_reachable_between
  obtain ⟨-, l, -, -, hs⟩ := h.sound
  obtain ⟨-, r, hr⟩ := hs.named_of_find? hfind
  obtain ⟨table, ht, -⟩ := hs.agrees.exists_table hr
  obtain ⟨blocks, store, hsurveys, hscript⟩ :=
    Reachable.surveys_agree h ht (fun n _ => decide (n = 0))
  obtain ⟨-, ⟨s₁, hbegin, -⟩, -⟩ := hscript "t" "x" hfind
  exact ⟨calls, s, s₁, table, blocks, store, h, htasks, ht, hfind, hsurveys,
    (hsurveys.order_eq ht).symm.trans horder, hbegin⟩

end Session

end HashIndex.Script
