import HashIndex.Proofs.Call.Removal
import HashIndex.Proofs.Session.Drain
import HashIndex.Proofs.Session.Traversal

/-!
# Removals without callbacks

As long as no hook does anything, the tasks of a traversal or of the drop of a table are done from
end to end without anything in between. So what they do to the store is a function of the store
alone, and strategies are told of just the values that are lost on the way.

## Main definitions

* `Session.Silent`: no hook does anything.
* `Session.Comes`, `Session.Takes`: what a silent session comes to by itself, and what a step leads
  to.

## Main statements

* `Session.Reachable.exists_putEach`: references that tables had are put one after the other.
* `Session.Reachable.takes_traverse`, `Session.Reachable.takes_dropTable`: traversals and drops of
  tables are what they are on the store alone.
* `Session.Reachable.removals_agree`: it does not matter in which way elements leave a table.
-/

namespace HashIndex.Script

variable {K : Type}

def Event.isFarewell : Event K → Bool
  | .freed .. | .dropped .. => true
  | _ => false

/-- What happens when a value is lost: its strategy may be told, and then it is dropped. -/
def farewells : Loss (Item K) → List (Event K)
  | (_, item, .drop) => [.dropped item.label]
  | (_, item, .announce strategy) => [.freed strategy item.label, .dropped item.label]

namespace Session

variable {s s' s₁ s₂ : Session K} {t : TableId} {e : ElementId} {x : Element (Item K)}
  {es : List ElementId} {task : Task K} {base tasks : List (Task K)} {buckets : List Nat}
  {i n number : Nat} {kept : List (String × ElementId)} {hold unhash : Selection K}
  {target name : String} {losses losses' : List (Loss (Item K))} {store store' : Store (Item K) K}
  {U : Finset ElementId} {calls : List (Call (Item K) K)}

/-- No hook that is left does anything, and no answer waits to be taken note of. -/
structure Silent (s : Session K) : Prop where
  hooks : ∀ entry ∈ s.hooks, entry.2 = []
  answer : s.answer = none

/-- The ends of values that the session has seen, latest first. -/
def farewellsSoFar (s : Session K) : List (Event K) := s.events.filter Event.isFarewell

/-- While the tasks `base` wait, a silent session comes to another one with the store `store`. The
values that come to their end meanwhile are those of `losses`, one after the other. -/
structure Comes (base : List (Task K)) (s : Session K) (losses : List (Loss (Item K)))
    (store : Store (Item K) K) (s' : Session K) : Prop where
  advances : Advances base s s'
  store : s'.store = store
  farewells : s'.farewellsSoFar = (losses.flatMap farewells).reverse ++ s.farewellsSoFar
  silent : s'.Silent

/-- A silent session that begins a step comes by itself to where the step is to be answered. -/
def Takes (s : Session K) (step : Step K) (losses : List (Loss (Item K)))
    (store : Store (Item K) K) : Prop :=
  ∃ s₁ answer s', s.begin step = .ok s₁ ∧ s₁.events = s.events ∧
    Comes s.tasks s₁ losses store s' ∧ s'.tasks = .answer answer :: s.tasks

theorem Silent.hookOf_eq (hsilent : s.Silent) (e : ElementId) : hookOf e s.hooks = [] := by
  have hnone := hsilent.hooks
  generalize s.hooks = hooks at hnone
  induction hooks with
  | nil => rfl
  | cons entry hooks ih =>
    rw [hookOf]
    split
    · exact hnone entry List.mem_cons_self
    · exact ih fun other hother => hnone other (List.mem_cons_of_mem _ hother)

theorem withoutHook_sublist (e : ElementId) (hooks : List (ElementId × List (Step K))) :
    (withoutHook e hooks).Sublist hooks := by
  induction hooks with
  | nil => exact .slnil
  | cons entry hooks ih =>
    rw [withoutHook]
    split
    · exact List.sublist_cons_self _ _
    · exact ih.cons_cons entry

theorem Comes.refl (base : List (Task K)) (hsilent : s.Silent) : Comes base s [] s.store s :=
  ⟨.refl, rfl, rfl, hsilent⟩

theorem Comes.trans (h : Comes base s losses store s₁) (h' : Comes base s₁ losses' store' s₂) :
    Comes base s (losses ++ losses') store' s₂ :=
  ⟨h.advances.trans h'.advances, h'.store,
    by rw [h'.farewells, h.farewells, List.flatMap_append, List.reverse_append, List.append_assoc],
    h'.silent⟩

theorem Comes.mono {base' : List (Task K)} (hbase : base' <:+ base)
    (h : Comes base s losses store s') : Comes base' s losses store s' :=
  ⟨h.advances.mono hbase, h.store, h.farewells, h.silent⟩

/-- One bit of a task in which no value comes to its end. -/
theorem Comes.single (hbase : base <:+ tasks) (htasks : s.tasks = task :: tasks)
    (hperform : { s with tasks := tasks }.perform task = .ok s') (hsilent : s'.Silent)
    (hstore : s'.store = store) (hfarewells : s'.farewellsSoFar = s.farewellsSoFar) :
    Comes base s [] store s' :=
  ⟨.single ⟨task, tasks, hbase, htasks, hperform⟩, hstore, hfarewells, hsilent⟩

theorem Comes.reachable (h : Comes base s losses store s') (hs : Reachable calls s) :
    ∃ calls', Reachable calls' s' :=
  h.advances.above.reachable hs

/-! ## References -/

/-- When the last reference was put, the value comes to its end before anything else is done. A hook
that does nothing is done at once. -/
theorem Silent.exists_last (hsilent : s.Silent) (htasks : s.tasks = task :: tasks)
    (hperform : { s with tasks := tasks }.perform task = .ok s₁)
    (hs₁ : s₁ = { s with
      store := store
      hooks := withoutHook e s.hooks
      tasks := s.afterFarewell e x ++ base
      events := farewell x :: s.events }) (hbase : tasks <:+ base) :
    ∃ s', Comes tasks s [(e, x.value, x.release)] store s' ∧ s'.tasks = base := by
  have hfirst : Advances tasks s s₁ := .single ⟨task, tasks, List.suffix_refl _, htasks, hperform⟩
  have hsilent₁ : s₁.Silent := by
    rw [hs₁]
    exact ⟨fun entry hentry => hsilent.hooks entry ((withoutHook_sublist e s.hooks).subset hentry),
      hsilent.answer⟩
  cases hrelease : x.release with
  | drop =>
    refine ⟨s₁, ⟨hfirst, by rw [hs₁], ?_, hsilent₁⟩, ?_⟩
    · simp [hs₁, farewellsSoFar, farewell, farewells, hrelease, List.filter_cons, Event.isFarewell]
    · simp [hs₁, afterFarewell, hrelease]
  | announce strategy =>
    have htasks₁ : s₁.tasks = .hook x.value.label [] :: base := by
      simp [hs₁, afterFarewell, hrelease, hsilent.hookOf_eq]
    have hperform₁ : { s₁ with tasks := base }.perform (.hook x.value.label []) =
        .ok ({ s₁ with tasks := base }.emit (.dropped x.value.label)) := by
      simp only [perform, performHook, hsilent₁.answer]
    refine ⟨_, ⟨hfirst.tail ⟨_, base, hbase, htasks₁, hperform₁⟩, by rw [hs₁]; rfl, ?_,
      hsilent₁.hooks, hsilent₁.answer⟩, rfl⟩
    simp [hs₁, emit, farewellsSoFar, farewell, farewells, hrelease, List.filter_cons,
      Event.isFarewell]

/-- A reference is put, and if it was the last one, the value comes to its end before anything else
is done. -/
theorem Reachable.exists_put (h : Reachable calls s) (hsilent : s.Silent)
    (htasks : s.tasks = task :: tasks) (hputs : task.puts? = some e) :
    ∃ gone store s', s.store.put e = .ok (gone, store) ∧
      Comes tasks s (Store.lossOf e gone) store s' ∧
      s'.tasks = task.afterPut gone.isSome ++ tasks := by
  obtain ⟨-, l, -, -, hs⟩ := h.sound
  obtain ⟨s₁, hperform, hput⟩ := h.puts htasks hputs
  obtain ⟨x, hx, hcases⟩ := hs.put_cases (mem_handleList_or_of_puts? htasks hputs)
  cases hput with
  | more hy hmore =>
    obtain rfl := Option.some.inj (hx.symm.trans hy)
    obtain ⟨-, hput⟩ := hcases.resolve_left fun h => hmore h.1
    exact ⟨none, _, _, hput, .single (List.suffix_refl _) htasks hperform
      ⟨hsilent.hooks, hsilent.answer⟩ rfl rfl, rfl⟩
  | last hy hlast =>
    obtain rfl := Option.some.inj (hx.symm.trans hy)
    obtain ⟨-, hput⟩ := hcases.resolve_right fun h => h.1 hlast
    obtain ⟨s', hcomes, hdone⟩ := hsilent.exists_last htasks hperform rfl (List.suffix_append _ _)
    exact ⟨some x, _, s', hput, hcomes, hdone⟩

/-- References that tables had are put one after the other. -/
theorem Reachable.exists_putEach (h : Reachable calls s) (hsilent : s.Silent)
    (htasks : s.tasks = .release es :: base) :
    ∃ losses store s', Store.putEach es s.store = .ok (losses, store) ∧
      Comes base s losses store s' ∧ s'.tasks = base := by
  induction es generalizing s calls with
  | nil =>
    have hdone := Comes.single (List.suffix_refl base) htasks rfl
      ⟨hsilent.hooks, hsilent.answer⟩ rfl rfl
    exact ⟨[], s.store, _, rfl, hdone, rfl⟩
  | cons e es ih =>
    obtain ⟨gone, store, s₁, hput, hcomes, htasks₁⟩ := h.exists_put hsilent htasks rfl
    obtain ⟨calls₁, h₁⟩ := hcomes.reachable h
    obtain ⟨losses, store', s', hrest, hcomes', hdone⟩ := ih h₁ hcomes.silent htasks₁
    refine ⟨_, store', s', ?_, hcomes.trans hcomes', hdone⟩
    rw [hcomes.store] at hrest
    simp only [Store.putEach, hput, hrest, Fault.ok_bind, Fault.pure_eq_ok]

/-- So they are when there is other work to be done afterwards. -/
theorem Comes.exists_putEach (hcomes : Comes base s [] store s₁) (h : Reachable calls s)
    (htasks : s₁.tasks = .release es :: task :: base) :
    ∃ losses store' s', Store.putEach es store = .ok (losses, store') ∧
      Comes base s losses store' s' ∧ s'.tasks = task :: base := by
  obtain ⟨calls₁, h₁⟩ := hcomes.reachable h
  obtain ⟨losses, store', s', hput, hcomes', hdone⟩ := h₁.exists_putEach hcomes.silent htasks
  rw [hcomes.store] at hput
  exact ⟨losses, store', s', hput, hcomes.trans (.mono (List.suffix_cons _ _) hcomes'), hdone⟩

/-! ## Traversals -/

theorem filter_visited (visits : List (Visit (Item K))) (events : List (Event K)) :
    ((visits.map fun v => Event.visited v.value v.hash).reverse ++ events).filter
      Event.isFarewell = events.filter Event.isFarewell := by
  rw [List.filter_append, List.filter_eq_nil_iff.mpr (by simp [Event.isFarewell]),
    List.nil_append]

theorem keptBy_eq_nil {visits : List (Visit (Item K))}
    (hnone : ∀ v ∈ visits, v.choice.hold = false) : keptBy target visits = [] := by
  rw [keptBy, List.filter_eq_nil_iff.mpr fun v hv => by simp [hnone v hv], List.map_nil]

/-- A traversal goes on from bucket to bucket, and puts the references of what was taken out before
it does. -/
theorem Reachable.exists_traverseBuckets (h : Reachable calls s) (hsilent : s.Silent)
    (htasks : s.tasks = .traverse t buckets number kept (fun _ _ => false) unhash target :: base) :
    ∃ losses store number' s',
      Store.traverseBuckets t (fun n item => ⟨false, unhash n item⟩) buckets number s.store =
        .ok (losses, store) ∧
      Comes base s losses store s' ∧
      s'.tasks = .traverse t [] number' kept (fun _ _ => false) unhash target :: base := by
  induction buckets generalizing s number calls with
  | nil => exact ⟨[], s.store, number, s, rfl, .refl base hsilent, htasks⟩
  | cons i buckets ih =>
    obtain ⟨visits, store₁, hwalk, hwalks, hperform⟩ := h.walk htasks
    rw [keptBy_eq_nil fun v hv => by rw [hwalks.choice v hv]] at hperform
    have hcomes₁ := Comes.single (List.suffix_refl base) htasks hperform
      ⟨hsilent.hooks, hsilent.answer⟩ rfl (filter_visited visits s.events)
    obtain ⟨losses₁, store₂, s₂, hput, hcomes₂, htasks₂⟩ := hcomes₁.exists_putEach h rfl
    obtain ⟨calls₂, h₂⟩ := hcomes₂.reachable h
    obtain ⟨losses₂, store₃, number', s₃, hrest, hcomes₃, hdone⟩ :=
      ih h₂ hcomes₂.silent htasks₂
    rw [hcomes₂.store] at hrest
    refine ⟨losses₁ ++ losses₂, store₃, number', s₃, ?_, hcomes₂.trans hcomes₃, hdone⟩
    simp only [Store.traverseBuckets, hwalk, hput, hrest, Fault.ok_bind, Fault.pure_eq_ok]

/-- When all buckets are visited and nothing is to be kept, the step is answered. -/
theorem Silent.exists_traverse_nil (hsilent : s.Silent)
    (htasks : s.tasks = .traverse t [] number [] hold unhash target :: base) :
    ∃ s', Comes base s [] s.store s' ∧ s'.tasks = .answer (.count number) :: base := by
  set s₁ : Session K := ({ s with tasks := base }.push (.answer (.count number))).push (.keep [])
  have hfirst : Comes base s [] s.store s₁ :=
    .single (List.suffix_refl _) htasks rfl ⟨hsilent.hooks, hsilent.answer⟩ rfl rfl
  have hsecond : Comes base s₁ [] s.store
      ({ s with tasks := base }.push (.answer (.count number))) :=
    .single (List.suffix_cons _ _) rfl rfl ⟨hsilent.hooks, hsilent.answer⟩ rfl rfl
  exact ⟨_, hfirst.trans hsecond, rfl⟩

/-- A traversal that takes no references is that of the store alone. -/
theorem Reachable.takes_traverse (h : Reachable calls s) (hsilent : s.Silent)
    (hfind : s.tables.find? name = some t) (unhash : Selection K) (target : String) :
    ∃ losses store, s.store.traverse t (fun n item => ⟨false, unhash n item⟩) =
        .ok (losses, store) ∧
      s.Takes (.traverse name (fun _ _ => false) unhash target) losses store := by
  obtain ⟨-, l, -, -, hs⟩ := h.sound
  obtain ⟨-, r, hr⟩ := hs.named_of_find? hfind
  obtain ⟨table, ht, -⟩ := hs.agrees.exists_table hr
  have hbegin := begin_traverse hfind ht (fun _ _ => false) unhash target
  obtain ⟨losses, store, number, s₁, hok, hcomes, htasks⟩ :=
    (h.begin _ hbegin).exists_traverseBuckets ⟨hsilent.hooks, hsilent.answer⟩ rfl
  obtain ⟨s', hcomes', hdone⟩ := hcomes.silent.exists_traverse_nil htasks
  have hall := hcomes.trans hcomes'
  rw [List.append_nil, hcomes.store] at hall
  refine ⟨losses, store, ?_, _, _, s', hbegin, rfl, hall, hdone⟩
  simp only [Store.traverse, Store.bucketRange_eq ht, Fault.ok_bind]
  exact hok

/-! ## Drops of tables -/

/-- The drop of a table goes on from bucket to bucket, puts the references of what was taken out
before it does, and forgets the table in the end. -/
theorem Reachable.exists_drainBuckets (h : Reachable calls s) (hsilent : s.Silent)
    (htasks : s.tasks = .drain t buckets n :: base) :
    ∃ losses store s', Store.drainBuckets t buckets n s.store = .ok (losses, store) ∧
      Comes base s losses store.settle s' ∧ s'.tasks = base := by
  induction buckets generalizing s n calls with
  | nil =>
    obtain ⟨-, l, -, -, hs⟩ := h.sound
    obtain ⟨-, -, hperform⟩ := h.drain_nil htasks
    refine ⟨[], _, _, rfl, .single (List.suffix_refl base) htasks hperform
      ⟨hsilent.hooks, hsilent.answer⟩ ?_ rfl, rfl⟩
    have hjournal : s.store.journal = [] := hs.settled
    simp only [Store.settle, Store.note, Store.freeTable, hjournal]
  | cons i buckets ih =>
    obtain ⟨released, store₁, hdrain, -, -, hperform⟩ := h.drain htasks
    have hcomes₁ := Comes.single (List.suffix_refl base) htasks hperform
      ⟨hsilent.hooks, hsilent.answer⟩ rfl rfl
    obtain ⟨losses₁, store₂, s₂, hput, hcomes₂, htasks₂⟩ := hcomes₁.exists_putEach h rfl
    obtain ⟨calls₂, h₂⟩ := hcomes₂.reachable h
    obtain ⟨losses₂, store₃, s₃, hrest, hcomes₃, hdone⟩ := ih h₂ hcomes₂.silent htasks₂
    rw [hcomes₂.store] at hrest
    refine ⟨losses₁ ++ losses₂, store₃, s₃, ?_, hcomes₂.trans hcomes₃, hdone⟩
    simp only [Store.drainBuckets, hdrain, hput, hrest, Fault.ok_bind, Fault.pure_eq_ok]

/-- The drop of a table is that of the store alone. -/
theorem Reachable.takes_dropTable (h : Reachable calls s) (hsilent : s.Silent)
    (hfind : s.tables.find? name = some t) (hunused : s.tasks.any (Task.uses t) = false) :
    ∃ losses store, s.store.dropTable t = .ok (losses, store) ∧
      s.Takes (.dropTable name) losses store.settle := by
  obtain ⟨tables, htake⟩ : ∃ tables, s.tables.take? name = some (t, tables) :=
    ⟨_, by rw [Directory.take?, hfind, Option.map_some]⟩
  obtain ⟨-, s₁, hbegin, -⟩ := h.exists_retire hfind hunused
  have hretire := hbegin
  simp only [Session.begin, beginDropTable, htake] at hretire
  obtain ⟨table, ht, rfl⟩ := exists_of_retire hretire
  obtain ⟨losses, store, s', hok, hcomes, hdone⟩ :=
    (h.begin _ hbegin).exists_drainBuckets ⟨hsilent.hooks, hsilent.answer⟩ rfl
  refine ⟨losses, store, ?_, _, _, s', hbegin, rfl, .mono (List.suffix_cons _ _) hcomes, hdone⟩
  have hrange : s.store.bucketRange t = .ok (List.range table.buckets.size) :=
    Store.bucketRange_eq ht
  simp only [Store.dropTable, hrange, Fault.ok_bind]
  exact hok

/-! ## All ways -/

/-- The elements of a set leave a table in the same way whether they are taken out one by one by
somebody who holds all of them, or by a traversal that is told to: the elements and the tables are
the same afterwards, word by word, and the same values go to the same releases in the same order,
namely those of the elements to which nobody but the table had a reference. And if no element stays,
dropping the table does the same, and forgets the table. -/
theorem Reachable.removals_agree (h : Reachable calls s) (hsilent : s.Silent)
    (hfind : s.tables.find? name = some t)
    (hpicks : s.store.Picks t (fun n item => ⟨false, unhash n item⟩) U) (target : String) :
    ∃ losses w, losses = ((s.store.order t).filter (· ∈ U)).filterMap s.store.loss? ∧
      s.store.holdAndRemove t U =
        .ok (((s.store.order t).filter (· ∈ U)).map fun _ => .ok (), losses, w) ∧
      (∃ store, s.Takes (.traverse name (fun _ _ => false) unhash target) losses store ∧
        store.heap = w.heap ∧ store.tables = w.tables) ∧
      ((∀ e, s.store.InTable t e → e ∈ U) → s.tasks.any (Task.uses t) = false →
        ∃ store, s.Takes (.dropTable name) losses store ∧
          store.heap = w.heap ∧ store.tables = (w.freeTable t).tables) := by
  obtain ⟨-, l, -, -, hs⟩ := h.sound
  obtain ⟨-, r, hr⟩ := hs.named_of_find? hfind
  obtain ⟨table, ht, -⟩ := hs.agrees.exists_table hr
  obtain ⟨replies, hruns⟩ := h.runs
  obtain ⟨losses, w, w₁, hlosses, hheld, htraverse, hheap, htables, hall⟩ :=
    hruns.ways_agree ht hpicks
  obtain ⟨_, _, hok, htakes⟩ := h.takes_traverse hsilent hfind unhash target
  obtain ⟨rfl, rfl⟩ := Prod.mk.inj (Except.ok.inj (htraverse.symm.trans hok))
  refine ⟨losses, w, hlosses, hheld, ⟨w₁, htakes, hheap, htables⟩, fun hwhole hunused => ?_⟩
  obtain ⟨w₂, hdrop, hheap₂, htables₂⟩ := hall hwhole
  obtain ⟨_, _, hok₂, htakes₂⟩ := h.takes_dropTable hsilent hfind hunused
  obtain ⟨rfl, rfl⟩ := Prod.mk.inj (Except.ok.inj (hdrop.symm.trans hok₂))
  exact ⟨w₂.settle, htakes₂, hheap₂, htables₂⟩

/-- A script that links two elements, one of which nobody else has a reference to. -/
def sharingScript : List (Step Nat) :=
  [.table "t" (.usual Item.key UInt32.ofNat (.announce "s") (.plain "")) .least,
    .create "a" ⟨"a", 7, 0⟩ [], .hash "t" "a" none, .drop "a", .create "b" ⟨"b", 39, 0⟩ [],
    .hash "t" "b" none]

theorem exists_reachable_sharing : ∃ (calls : List (Call (Item Nat) Nat)) (s : Session Nat),
    Reachable calls s ∧ s.Silent ∧ s.tasks = [] ∧ s.tables.find? "t" = some 0 ∧
      s.store.order 0 = [1, 0] ∧
      [1, 0].filterMap s.store.loss? = [(0, ⟨"a", 7, 0⟩, .announce "s")] := by
  obtain ⟨calls, -, s, -, h, -, htasks, -, hhooks, hanswer, hfind, horder, hlosses⟩ :=
    exists_reachable_of_play 3 sharingScript .ok
      (fun s _ => (s.hooks.all fun entry => entry.2.isEmpty) ∧ s.answer.isNone ∧
        s.tables.find? "t" = some 0 ∧ s.store.order 0 = [1, 0] ∧
        [1, 0].filterMap s.store.loss? = [(0, ⟨"a", 7, 0⟩, .announce "s")]) (by decide +kernel)
  simp only [List.all_eq_true, List.isEmpty_iff, Option.isNone_iff_eq_none] at hhooks hanswer
  exact ⟨calls, s, h, ⟨hhooks, hanswer⟩, htasks, hfind, horder, hlosses⟩

/-- Of two elements that leave a table one is destroyed, in each of the three ways. -/
theorem Reachable.removals_agree_of_sharing : ∃ (calls : List (Call (Item Nat) Nat))
    (s : Session Nat) (unhash : Selection Nat) (losses : List (Loss (Item Nat)))
    (w store₁ store₂ : Store (Item Nat) Nat),
      Reachable calls s ∧ s.Silent ∧ s.tables.find? "t" = some 0 ∧
      s.store.Picks 0 (fun n item => ⟨false, unhash n item⟩) {0, 1} ∧
      (∀ e, s.store.InTable 0 e → e ∈ ({0, 1} : Finset ElementId)) ∧
      s.tasks.any (Task.uses 0) = false ∧
      losses = [(0, ⟨"a", 7, 0⟩, .announce "s")] ∧
      s.store.holdAndRemove 0 {0, 1} = .ok ([.ok (), .ok ()], losses, w) ∧
      s.Takes (.traverse "t" (fun _ _ => false) unhash "") losses store₁ ∧
      s.Takes (.dropTable "t") losses store₂ ∧ store₁.heap = w.heap ∧ store₂.heap = w.heap := by
  obtain ⟨calls, s, h, hsilent, htasks, hfind, horder, hlosses⟩ := exists_reachable_sharing
  obtain ⟨unhash, hpicks⟩ := s.store.exists_picks 0 {0, 1}
  have hchosen : (s.store.order 0).filter (· ∈ ({0, 1} : Finset ElementId)) = [1, 0] := by
    rw [horder]
    rfl
  have hunused : s.tasks.any (Task.uses 0) = false := by rw [htasks]; rfl
  have hall : ∀ e, s.store.InTable 0 e → e ∈ ({0, 1} : Finset ElementId) := by
    intro e he
    obtain ⟨-, l, -, -, hs⟩ := h.sound
    obtain ⟨-, r, hr⟩ := hs.named_of_find? hfind
    rw [hs.agrees.inTable_iff hr, ← hs.agrees.mem_order_iff hr, horder] at he
    simpa [or_comm] using he
  obtain ⟨losses, w, hsame, hheld, ⟨store₁, htraverse, hheap, -⟩, hdrop⟩ :=
    Reachable.removals_agree h hsilent hfind hpicks ""
  obtain ⟨store₂, hdropped, hheap₂, -⟩ := hdrop hall hunused
  rw [hchosen] at hsame hheld
  exact ⟨calls, s, unhash, losses, w, store₁, store₂, h, hsilent, hfind, hpicks, hall, hunused,
    hsame.trans hlosses, hheld, htraverse, hdropped, hheap, hheap₂⟩

end Session

end HashIndex.Script
