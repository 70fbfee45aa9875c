import HashIndex.Proofs.Call.Leaving

/-!
# Three ways to empty a table

Elements are taken out of a table one by one by somebody who holds all of them, or by a traversal
that is told to, or because the table is dropped. The chains are edited by different code each time,
and references are put at other moments: at once, after each bucket, or at the end. As long as no
release calls back, nobody can tell which way it was.

## Main definitions

* `Store.putEach`: references are put one after the other.
* `Store.holdAndRemove`, `Store.traverse`, `Store.dropTable`: the three ways.
* `Store.order`: the elements of a table as traversals meet them.
* `Store.Picks`: a choice that takes certain elements out.

## Main statements

* `Store.Emptying.put`, `Store.Emptying.walkBucket`, `Store.Emptying.drainBucket`: what is done on
  the way.
* `Store.Emptying.unhashEach`, `Store.Emptying.traverseBuckets`, `Store.Emptying.drainBuckets`: the
  ways to take elements out.
* `Store.Runs.ways_agree`: all three ways end in the same state with the same losses.
-/

namespace HashIndex

variable {V K : Type}

namespace Store

/-- What becomes of an element when a reference to it was put. -/
def lossOf (e : ElementId) (gone : Option (Element V)) : List (Loss V) :=
  (gone.map fun x => (e, x.value, x.release)).toList

def putEach : List ElementId → Store V K → Except Fault (List (Loss V) × Store V K)
  | [], s => .ok ([], s)
  | e :: es, s => do
    let (gone, s) ← s.put e
    let (losses, s) ← putEach es s
    return (lossOf e gone ++ losses, s)

/-! ## One by one -/

/-- Take elements out of a table one after the other, and put a reference to each of them. -/
def unhashEach (t : TableId) :
    List ElementId → Store V K →
      Except Fault (List (Except Refusal Unit) × List (Loss V) × Store V K)
  | [], s => .ok ([], [], s)
  | e :: es, s => do
    let (result, gone, s) ← s.unhashPut t e
    let (gone', s) ← s.put e
    let (results, losses, s) ← unhashEach t es s
    return (result :: results, lossOf e gone ++ lossOf e gone' ++ losses, s)

/-- Hold all elements of a table while they are read, take those out that are in `U`, one after the
other, and put the references to the others. -/
def holdAndRemove (s : Store V K) (t : TableId) (U : Finset ElementId) :
    Except Fault (List (Except Refusal Unit) × List (Loss V) × Store V K) := do
  let buckets ← s.bucketRange t
  let (visits, s) ← readBuckets t (fun _ _ => true) buckets [] 0 s
  let held := visits.flatten.map Visit.element
  let (results, losses, s) ← unhashEach t (held.filter (· ∈ U)) s
  let (losses', s) ← putEach (held.filter (· ∉ U)) s
  return (results, losses ++ losses', s)

/-! ## By a traversal -/

/-- Visit several buckets, where `number` elements were visited before. The references to elements
that were taken out are put before the next bucket is visited. -/
def traverseBuckets (t : TableId) (choose : Nat → V → Choice) :
    List Nat → Nat → Store V K → Except Fault (List (Loss V) × Store V K)
  | [], _, s => .ok ([], s)
  | i :: buckets, number, s => do
    let walk ← s.walkBucket t i number choose
    let (losses, s) ← putEach walk.released walk.store
    let (losses', s) ← traverseBuckets t choose buckets (number + walk.visits.length) s
    return (losses ++ losses', s)

def traverse (s : Store V K) (t : TableId) (choose : Nat → V → Choice) :
    Except Fault (List (Loss V) × Store V K) := do
  let buckets ← s.bucketRange t
  traverseBuckets t choose buckets 0 s

/-! ## By dropping the table -/

/-- Drain several buckets, where `drained` elements were taken out before, and forget the table. The
references to elements are put before the next bucket is drained. -/
def drainBuckets (t : TableId) :
    List Nat → Nat → Store V K → Except Fault (List (Loss V) × Store V K)
  | [], drained, s => .ok ([], (s.freeTable t).note (.drained drained))
  | i :: buckets, drained, s => do
    let (released, s) ← s.drainBucket t i
    let (losses, s) ← putEach released s
    let (losses', s) ← drainBuckets t buckets (drained + released.length) s
    return (losses ++ losses', s)

def dropTable (s : Store V K) (t : TableId) : Except Fault (List (Loss V) × Store V K) := do
  let buckets ← s.bucketRange t
  drainBuckets t buckets 0 s

/-! ## What is taken out -/

/-- The elements of a table in the order in which traversals meet them. -/
def order (s : Store V K) (t : TableId) : List ElementId :=
  ((s.table? t).map fun table =>
    (List.range table.buckets.size).flatMap fun i => (s.members? t i).getD []).getD []

/-- In a traversal of a table, exactly the elements in `U` are taken out, and none is held. -/
def Picks (s : Store V K) (t : TableId) (choose : Nat → V → Choice) (U : Finset ElementId) :
    Prop :=
  ∀ n e v, (s.order t)[n]? = some e → s.value? e = some v → choose n v = ⟨false, e ∈ U⟩

/-- What is lost when an element leaves its table: nothing if there are other references to it. -/
def loss? (s : Store V K) (e : ElementId) : Option (Loss V) :=
  (s.heap.get? e).bind fun x => if x.count = 1 then some (e, x.value, x.release) else none

/-- Every set of elements is picked by some choice. -/
theorem exists_picks (s : Store V K) (t : TableId) (U : Finset ElementId) :
    ∃ unhash : Nat → V → Bool, s.Picks t (fun n v => ⟨false, unhash n v⟩) U :=
  ⟨fun n _ => ((s.order t)[n]?).any (· ∈ U), fun n e v he _ => by simp [he]⟩

end Store

namespace Roster

variable {r : Roster V K} {e : ElementId} {buckets : List Nat}

def across (r : Roster V K) (buckets : List Nat) : List ElementId :=
  buckets.flatMap fun i => (r.bucket i).map Prod.fst

@[simp] theorem across_nil (r : Roster V K) : r.across [] = [] := rfl

@[simp] theorem across_cons (r : Roster V K) (i : Nat) (buckets : List Nat) :
    r.across (i :: buckets) = (r.bucket i).map Prod.fst ++ r.across buckets := rfl

theorem bucket_subset (r : Roster V K) (i : Nat) : (r.bucket i).map Prod.fst ⊆ r.elements :=
  (List.filter_sublist.map Prod.fst).subset

theorem across_subset (r : Roster V K) (buckets : List Nat) : r.across buckets ⊆ r.elements := by
  intro e he
  obtain ⟨i, -, he⟩ := List.mem_flatMap.mp he
  exact r.bucket_subset i he

/-- Every element is in some bucket. -/
theorem mem_across_range (he : e ∈ r.elements) : e ∈ r.across (List.range r.capacity.size) := by
  obtain ⟨hash, he⟩ := mem_elements_iff.mp he
  exact List.mem_flatMap.mpr ⟨r.slot hash, List.mem_range.mpr (r.slot_lt hash),
    List.mem_map_of_mem (mem_bucket_iff.mpr ⟨he, rfl⟩)⟩

theorem mem_across_range_iff :
    e ∈ r.across (List.range r.capacity.size) ↔ e ∈ r.elements :=
  ⟨fun he => r.across_subset _ he, mem_across_range⟩

theorem nodup_across (hnodup : r.elements.Nodup) (hbuckets : buckets.Nodup) :
    (r.across buckets).Nodup :=
  List.nodup_flatMap.mpr ⟨fun i _ => nodup_bucket hnodup i,
    hbuckets.imp fun hne => disjoint_bucket hnodup hne⟩

theorem disjoint_across {i : Nat} (hnodup : r.elements.Nodup) (hbuckets : (i :: buckets).Nodup) :
    List.Disjoint ((r.bucket i).map Prod.fst) (r.across buckets) :=
  List.disjoint_of_nodup_append (nodup_across hnodup hbuckets)

end Roster

namespace Ledger

variable {l l' : Ledger V K} {t : TableId} {number : Nat} {U : Finset ElementId}
  {value? : ElementId → Option V} {out owed : List ElementId}

theorem elements_of_shows {lists : List (List (ElementId × UInt32))}
    {visits : List (List (Visit V))} (h : List.Forall₂ (Shows value?) lists visits) :
    visits.flatten.map Visit.element = lists.flatMap fun entries => entries.map Prod.fst := by
  induction h with
  | nil => rfl
  | cons hshows _ ih =>
    rw [List.flatten_cons, List.map_append, ih, List.flatMap_cons, ← hshows.entries, List.map_map]
    rfl

/-- A choice that picks elements by their places takes out just these. -/
theorem taken_of_visit {choose : Nat → V → Choice} {entries : List (ElementId × UInt32)}
    {visits : List (Visit V)} (h : visit t choose entries number l = some (visits, l'))
    (hpicks : ∀ n e v, (entries.map Prod.fst)[n]? = some e → l.value? e = some v →
      choose (number + n) v = ⟨false, e ∈ U⟩) :
    heldBy visits = [] ∧ takenOut visits = (entries.map Prod.fst).filter (· ∈ U) := by
  induction entries generalizing l number visits with
  | nil =>
    obtain ⟨rfl, rfl⟩ := by simpa [visit] using h
    exact ⟨rfl, rfl⟩
  | cons entry entries ih =>
    obtain ⟨e, hash⟩ := entry
    simp only [visit, Option.bind_eq_bind, Option.bind_eq_some_iff, Option.pure_def,
      Option.some.injEq, Prod.mk.injEq, Prod.exists] at h
    obtain ⟨a, ha, visits, l', hvisits, rfl, rfl⟩ := h
    have hchoice : choose number a.value = ⟨false, e ∈ U⟩ :=
      hpicks 0 e a.value rfl (by rw [Ledger.value?, ha, Option.map_some])
    obtain ⟨es, hyields, -⟩ := yields_treat t ha (choose number a.value)
    obtain ⟨hheld, htaken⟩ := ih hvisits fun n f v hf hv => by
      rw [Nat.add_assoc, Nat.add_comm 1]
      exact hpicks (n + 1) f v hf (hyields.value?_eq ▸ hv)
    rw [heldBy_cons, takenOut_cons, hheld, htaken, hchoice]
    refine ⟨rfl, ?_⟩
    by_cases he : e ∈ U <;> simp [he]

theorem Leaving.value?_eq (h : l.Leaving t out owed l') {e : ElementId} {v : V}
    (hv : l'.value? e = some v) : l.value? e = some v := by
  obtain ⟨b, hb, rfl⟩ := Option.map_eq_some_iff.mp hv
  rw [h.account, Option.bind_eq_some_iff] at hb
  obtain ⟨a, ha, hb⟩ := hb
  split at hb
  · cases hb
  · obtain rfl := Option.some.inj hb
    rw [Ledger.value?, ha, Option.map_some]

end Ledger

namespace Store

variable {s w : Store V K} {l m : Ledger V K} {t : TableId} {r : Roster V K} {e : ElementId}
  {out owed es taken : List ElementId} {U : Finset ElementId} {choose : Nat → V → Choice}

theorem Agrees.order_eq (hs : s.Agrees l) (hr : l.roster? t = some r) :
    s.order t = r.across (List.range r.capacity.size) := by
  obtain ⟨table, ht, htable⟩ := hs.exists_table hr
  rw [order, ht, Option.map_some, Option.getD_some, htable.size, Roster.across]
  refine List.flatMap_congr fun i hi => ?_
  rw [hs.members?_eq, hr, Option.bind_some, if_pos (List.mem_range.mp hi), Option.getD_some]

theorem Agrees.loss?_eq (hs : s.Agrees l) (hr : l.roster? t = some r) (he : e ∈ r.elements) :
    s.loss? e = l.loss? e := by
  obtain ⟨hash, hmem⟩ := Roster.mem_elements_iff.mp he
  obtain ⟨x, hx, howner, -⟩ := hs.listed t r hr e hash hmem
  obtain ⟨a, ha, hxa⟩ := hs.exists_account hx
  have hcount := hxa.count
  rw [if_pos (Element.isHashed_iff.mpr ⟨t, howner⟩)] at hcount
  rw [loss?, Ledger.loss?, hx, ha, Option.bind_some, Option.bind_some, hcount, hxa.value,
    hxa.release]
  simp

theorem Agrees.mem_order_iff (hs : s.Agrees l) (hr : l.roster? t = some r) :
    e ∈ s.order t ↔ e ∈ r.elements := by
  rw [hs.order_eq hr, Roster.mem_across_range_iff]

theorem Agrees.filterMap_loss? (hs : s.Agrees l) (hr : l.roster? t = some r)
    (p : ElementId → Bool) :
    ((s.order t).filter p).filterMap l.loss? = ((s.order t).filter p).filterMap s.loss? :=
  List.filterMap_congr fun _ he =>
    (hs.loss?_eq hr ((hs.mem_order_iff hr).mp (List.mem_of_mem_filter he))).symm

/-! ## On the way -/

/-- On the way to a table without certain elements, nothing is locked. -/
def Emptying (l : Ledger V K) (t : TableId) (out owed : List ElementId) (w : Store V K) : Prop :=
  ∃ m, l.Leaving t out owed m ∧ w.Agrees m ∧ w.locks = []

section Emptying

variable (hs : s.Agrees l) (hr : l.roster? t = some r)

include hs hr

theorem Emptying.put (h : Emptying l t out (e :: owed) w) (he : e ∈ r.elements)
    (honce : e ∉ owed) :
    ∃ gone w', w.put e = .ok (gone, w') ∧
      lossOf e gone = (if e ∈ out then l.loss? e else none).toList ∧
      Emptying l t out owed w' := by
  obtain ⟨m, hm, hw, hidle⟩ := h
  obtain ⟨a, ha⟩ := hs.covered t r hr e he
  obtain ⟨lost, m', hput, hlost, hm'⟩ := hm.put hr he ha
    (fun u r' hr' he' => hs.lists.unique u t r' r e hr' hr he' he) honce
  obtain ⟨gone, w', hok, hrel, hw', hidle'⟩ := hw.put hidle hput
  refine ⟨gone, w', hok, ?_, m', hm', hw', hidle'⟩
  rw [← hlost, lossOf]
  cases hrel with
  | none => rfl
  | some hxa => simp only [Option.map_some, hxa.value, hxa.release]

/-- Putting references one after the other destroys those of the elements taken out that nobody else
refers to. -/
theorem Emptying.putEach (h : Emptying l t out (es ++ owed) w) (hes : es ⊆ r.elements)
    (hnodup : (es ++ owed).Nodup) :
    ∃ w', Store.putEach es w = .ok ((es.filter (· ∈ out)).filterMap l.loss?, w') ∧
      Emptying l t out owed w' := by
  induction es generalizing w with
  | nil => exact ⟨w, rfl, h⟩
  | cons e es ih =>
    obtain ⟨honce, hnodup⟩ := List.nodup_cons.mp hnodup
    obtain ⟨gone, w₁, hput, hlost, h₁⟩ :=
      Emptying.put hs hr h (hes List.mem_cons_self) honce
    obtain ⟨w', hrest, h'⟩ := ih h₁ (fun f hf => hes (List.mem_cons_of_mem _ hf)) hnodup
    refine ⟨w', ?_, h'⟩
    simp only [Store.putEach, hput, hrest, Fault.ok_bind, Fault.pure_eq_ok, hlost]
    congr 2
    by_cases he : e ∈ out
    · rw [if_pos he, List.filter_cons_of_pos (by simpa using he), List.filterMap_cons]
      cases l.loss? e <;> rfl
    · rw [if_neg he, List.filter_cons_of_neg (by simpa using he)]
      rfl

/-! ## One by one -/

/-- An element to which there is a reference is taken out, and that reference is put. -/
theorem Emptying.unhashPut (h : Emptying l t out (e :: owed) w) (he : e ∈ r.elements)
    (honce : e ∉ owed) (hnew : e ∉ out) :
    ∃ w₁ gone w', w.unhashPut t e = .ok (.ok (), none, w₁) ∧ w₁.put e = .ok (gone, w') ∧
      lossOf e gone = (l.loss? e).toList ∧ Emptying l t (out ++ [e]) owed w' := by
  obtain ⟨m, hm, hw, hidle⟩ := h
  obtain ⟨a, ha⟩ := hs.covered t r hr e he
  -- the reference that is held is a reason for the element to live on
  have hheld : m.held? e = some { a with references := a.references + owed.count e + 1 } :=
    Ledger.held?_eq_some_iff.mpr ⟨by
      rw [hm.account, ha, Option.bind_some, List.count_cons_self, if_neg (by omega)]
      rfl, Nat.succ_pos _⟩
  have hin : e ∈ (r.without out).elements := Roster.mem_elements_without.mpr ⟨he, hnew⟩
  obtain ⟨w₁, hunhash, hw₁, hidle₁⟩ := hw.unhashPut hidle (hm.roster_self hr) hheld hin
  have hleft : Emptying l t (out ++ [e]) (e :: owed) w₁ :=
    ⟨_, hm.remove List.mem_cons_self, hw₁, hidle₁⟩
  obtain ⟨gone, w', hput, hlost, h'⟩ := Emptying.put hs hr hleft he honce
  rw [if_pos (List.mem_append_right _ (List.mem_singleton_self _))] at hlost
  exact ⟨w₁, gone, w', hunhash, hput, hlost, h'⟩

/-- Elements that are taken out one by one are lost in their order. -/
theorem Emptying.unhashEach (h : Emptying l t out (es ++ owed) w) (hes : es ⊆ r.elements)
    (hnodup : (es ++ owed).Nodup) (hnew : ∀ e ∈ es, e ∉ out) :
    ∃ w', Store.unhashEach t es w = .ok (es.map fun _ => .ok (), es.filterMap l.loss?, w') ∧
      Emptying l t (out ++ es) owed w' := by
  induction es generalizing w out with
  | nil => exact ⟨w, rfl, by simpa using h⟩
  | cons e es ih =>
    obtain ⟨honce, hnodup⟩ := List.nodup_cons.mp hnodup
    obtain ⟨w₁, gone, w₂, hunhash, hput, hlost, h₂⟩ := Emptying.unhashPut hs hr h
      (hes List.mem_cons_self) honce (hnew e List.mem_cons_self)
    obtain ⟨w', hrest, h'⟩ := ih h₂ (fun f hf => hes (List.mem_cons_of_mem _ hf)) hnodup
      fun f hf hout => by
        rcases List.mem_append.mp hout with hout | hout
        · exact hnew f (List.mem_cons_of_mem _ hf) hout
        · obtain rfl := List.mem_singleton.mp hout
          exact honce (List.mem_append_left _ hf)
    refine ⟨w', ?_, by simpa using h'⟩
    simp only [Store.unhashEach, hunhash, hput, hrest, Fault.ok_bind, Fault.pure_eq_ok, hlost,
      List.map_cons, List.filterMap_cons]
    cases l.loss? e <;> rfl

/-- All elements are held while they are read. -/
theorem Agrees.exists_held (hidle : s.locks = []) :
    ∃ visits w, Store.readBuckets t (fun _ _ => true) (List.range r.capacity.size) [] 0 s =
        .ok (visits, w) ∧
      visits.flatten.map Visit.element = r.across (List.range r.capacity.size) ∧
      Emptying l t [] (r.across (List.range r.capacity.size)) w := by
  obtain ⟨visits, m, hsurvey⟩ := Ledger.exists_survey hs.covered hr (fun _ _ => true)
    (List.range r.capacity.size) (fun i hi => List.mem_range.mp hi) 0
  obtain ⟨w, hok, hw, hidle'⟩ := hs.readBuckets hidle hsurvey []
  have helements : visits.flatten.map Visit.element =
      r.across (List.range r.capacity.size) := by
    rw [Ledger.elements_of_shows (Ledger.shows_of_survey hr hsurvey), List.flatMap_map]
    rfl
  obtain ⟨es, hyields, hperm⟩ := Ledger.yields_of_survey hsurvey
  refine ⟨visits, w, hok, helements, m, ?_, hw, hidle'⟩
  have hheld : Ledger.heldBy visits.flatten = visits.flatten.map Visit.element := by
    rw [Ledger.heldBy, List.filter_eq_self.mpr fun v hv => by
      rw [Ledger.choice_of_survey hsurvey v hv]]
  have hsame : ∀ u, m.roster? u = if u = t then some (r.without []) else l.roster? u := by
    intro u
    rw [Ledger.roster?_of_survey hsurvey, Roster.without_nil]
    split
    · rw [← hr, ‹u = t›]
    · rfl
  refine ((Ledger.Leaving.refl l t).yields hyields hr hsame (List.nil_subset _)
    (fun _ _ => List.not_mem_nil)).congr (fun _ => Iff.rfl) ?_
  rw [List.append_nil, ← helements, ← hheld]
  exact hperm.symm

/-! ## Bucket by bucket -/

/-- Elements leave a bucket together, and the references to them are put afterwards. -/
theorem Emptying.detach (hm : l.Leaving t out [] m) {m' : Ledger V K} {w' : Store V K}
    (hw' : w'.Agrees m') (hidle' : w'.locks = []) (hyields : m.Yields es m')
    (hperm : es.Perm taken)
    (hroster : ∀ u, m'.roster? u =
      if u = t then some ((r.without out).without taken) else m.roster? u)
    (htaken : taken ⊆ r.elements) (hnodup : taken.Nodup) (hnew : ∀ e ∈ taken, e ∉ out) :
    ∃ w'', Store.putEach taken w' = .ok (taken.filterMap l.loss?, w'') ∧
      Emptying l t (out ++ taken) [] w'' := by
  have hleft := hm.yields hyields (hm.roster_self hr) hroster hperm.symm.subset
    fun e he => hnew e (hperm.subset he)
  have howed : Emptying l t (out ++ taken) (taken ++ []) w' :=
    ⟨m', hleft.congr (fun _ => Iff.rfl) (hperm.symm.append_right []), hw', hidle'⟩
  obtain ⟨w'', hok, h⟩ := Emptying.putEach hs hr howed htaken (by simpa using hnodup)
  rw [List.filter_eq_self.mpr fun e he => by simp [he]] at hok
  exact ⟨w'', hok, h⟩

/-- A traversal takes the elements out of a bucket that it was told to. -/
theorem Emptying.walkBucket {i number : Nat} (h : Emptying l t out [] w)
    (hi : i < r.capacity.size) (hnew : List.Disjoint out ((r.bucket i).map Prod.fst))
    (hpicks : ∀ n e v, ((r.bucket i).map Prod.fst)[n]? = some e → l.value? e = some v →
      choose (number + n) v = ⟨false, e ∈ U⟩) :
    ∃ walk w', w.walkBucket t i number choose = .ok walk ∧
      walk.visits.length = ((r.bucket i).map Prod.fst).length ∧
      Store.putEach walk.released walk.store =
        .ok ((((r.bucket i).map Prod.fst).filter (· ∈ U)).filterMap l.loss?, w') ∧
      Emptying l t (out ++ ((r.bucket i).map Prod.fst).filter (· ∈ U)) [] w' := by
  obtain ⟨m, hm, hw, hidle⟩ := h
  obtain ⟨visits, m', hwalk⟩ := Ledger.exists_walk hw.covered (hm.roster_self hr) hi number choose
  obtain ⟨w₁, hok, hw₁, hidle₁⟩ := hw.walkBucket hidle hwalk
  obtain ⟨r', hr', -, hvisit⟩ := Ledger.walk_eq_some_iff.mp hwalk
  obtain rfl := Option.some.inj ((hm.roster_self hr).symm.trans hr')
  have hroster := Ledger.roster?_of_visit hr' hvisit
  have hlength := congrArg List.length (Ledger.shows_of_visit hvisit).entries
  rw [Roster.bucket_without_of_disjoint hnew] at hvisit hlength
  rw [List.length_map] at hlength
  obtain ⟨hheld, htaken⟩ := Ledger.taken_of_visit (U := U) hvisit fun n e v he hv =>
    hpicks n e v he (hm.value?_eq hv)
  obtain ⟨es, hyields, hperm⟩ := Ledger.yields_of_visit hvisit
  rw [hheld, List.nil_append] at hperm
  have hsub : Ledger.takenOut visits ⊆ (r.bucket i).map Prod.fst :=
    htaken ▸ List.filter_sublist.subset
  obtain ⟨w', hput, h'⟩ := Emptying.detach hs hr hm hw₁ hidle₁ hyields hperm hroster
    (fun e he => r.bucket_subset i (hsub he))
    (htaken ▸ (Roster.nodup_bucket (hs.nodup t r hr) i).filter _)
    fun e he hout => hnew hout (hsub he)
  rw [htaken] at hput h'
  exact ⟨_, w', hok, by simp [hlength], htaken ▸ hput, h'⟩

/-- A traversal takes out the elements it was told to, bucket by bucket. -/
theorem Emptying.traverseBuckets {buckets : List Nat} (number : Nat)
    (h : Emptying l t out [] w) (hbuckets : ∀ i ∈ buckets, i < r.capacity.size)
    (hnodup : buckets.Nodup) (hnew : List.Disjoint out (r.across buckets))
    (hpicks : ∀ n e v, (r.across buckets)[n]? = some e → l.value? e = some v →
      choose (number + n) v = ⟨false, e ∈ U⟩) :
    ∃ w', Store.traverseBuckets t choose buckets number w =
        .ok (((r.across buckets).filter (· ∈ U)).filterMap l.loss?, w') ∧
      Emptying l t (out ++ (r.across buckets).filter (· ∈ U)) [] w' := by
  induction buckets generalizing w out number with
  | nil => exact ⟨w, rfl, by simpa using h⟩
  | cons i buckets ih =>
    rw [Roster.across_cons, List.disjoint_append_right] at hnew
    -- the elements of this bucket come first among those that are still to be visited
    obtain ⟨walk, w₁, hok, hlength, hput, h₁⟩ := Emptying.walkBucket (U := U) hs hr h
      (hbuckets i List.mem_cons_self) hnew.1 fun n e v he hv => by
        obtain ⟨hn, -⟩ := List.getElem?_eq_some_iff.mp he
        refine hpicks n e v ?_ hv
        rw [Roster.across_cons, List.getElem?_append_left hn, he]
    have hothers := Roster.disjoint_across (hs.nodup t r hr) hnodup
    obtain ⟨w', hrest, h'⟩ := ih (number + walk.visits.length) h₁
      (fun j hj => hbuckets j (List.mem_cons_of_mem _ hj)) (List.nodup_cons.mp hnodup).2
      (List.disjoint_append_left.mpr ⟨hnew.2, fun e he => hothers (List.mem_of_mem_filter he)⟩)
      fun n e v he hv => by
        rw [Nat.add_assoc]
        refine hpicks (walk.visits.length + n) e v ?_ hv
        rw [Roster.across_cons, hlength, List.getElem?_append_right (Nat.le_add_right _ _),
          Nat.add_sub_cancel_left, he]
    refine ⟨w', ?_, ?_⟩
    · rw [Roster.across_cons, List.filter_append, List.filterMap_append]
      simp only [Store.traverseBuckets, hok, hput, hrest, Fault.ok_bind, Fault.pure_eq_ok]
    · rw [Roster.across_cons, List.filter_append, ← List.append_assoc]
      exact h'

/-- A table that is dropped loses all elements of a bucket. -/
theorem Emptying.drainBucket {i : Nat} (h : Emptying l t out [] w) (hi : i < r.capacity.size)
    (hnew : List.Disjoint out ((r.bucket i).map Prod.fst)) :
    ∃ released w₁ w', w.drainBucket t i = .ok (released, w₁) ∧
      Store.putEach released w₁ = .ok (((r.bucket i).map Prod.fst).filterMap l.loss?, w') ∧
      Emptying l t (out ++ (r.bucket i).map Prod.fst) [] w' := by
  obtain ⟨m, hm, hw, hidle⟩ := h
  have hr' := hm.roster_self hr
  have hdrain := Ledger.drain_eq_some_iff.mpr ⟨_, hr', hi, rfl, rfl⟩
  obtain ⟨w₁, hok, hw₁, hidle₁⟩ := hw.drainBucket hidle hdrain
  have hroster := Ledger.roster?_foldl_detach hr' (((r.without out).bucket i).map Prod.fst)
  have hlive : ∀ e ∈ ((r.without out).bucket i).map Prod.fst, ∃ a, m.account? e = some a :=
    fun e he => hw.covered t _ hr' e (Roster.bucket_subset _ i he)
  have hyields := Ledger.yields_foldl_detach t hlive
  rw [Roster.bucket_without_of_disjoint hnew] at hok hw₁ hroster hyields
  obtain ⟨w', hput, h'⟩ := Emptying.detach hs hr hm hw₁ hidle₁ hyields (List.reverse_perm _)
    hroster (r.bucket_subset i) (Roster.nodup_bucket (hs.nodup t r hr) i)
    fun e he hout => hnew hout he
  exact ⟨_, w₁, w', hok, hput, h'⟩

/-- A table that is dropped loses all its elements, bucket by bucket. -/
theorem Emptying.drainBuckets {buckets : List Nat} (drained : Nat)
    (h : Emptying l t out [] w) (hbuckets : ∀ i ∈ buckets, i < r.capacity.size)
    (hnodup : buckets.Nodup) (hnew : List.Disjoint out (r.across buckets)) :
    ∃ w' n, Store.drainBuckets t buckets drained w =
        .ok ((r.across buckets).filterMap l.loss?, (w'.freeTable t).note (.drained n)) ∧
      Emptying l t (out ++ r.across buckets) [] w' := by
  induction buckets generalizing w out drained with
  | nil => exact ⟨w, drained, rfl, by simpa using h⟩
  | cons i buckets ih =>
    rw [Roster.across_cons, List.disjoint_append_right] at hnew
    obtain ⟨released, w₁, w₂, hok, hput, h₂⟩ :=
      Emptying.drainBucket hs hr h (hbuckets i List.mem_cons_self) hnew.1
    obtain ⟨w', n, hrest, h'⟩ := ih (drained + released.length) h₂
      (fun j hj => hbuckets j (List.mem_cons_of_mem _ hj)) (List.nodup_cons.mp hnodup).2
      (List.disjoint_append_left.mpr
        ⟨hnew.2, Roster.disjoint_across (hs.nodup t r hr) hnodup⟩)
    refine ⟨w', n, ?_, ?_⟩
    · simp only [Store.drainBuckets, hok, hput, hrest, Fault.ok_bind, Fault.pure_eq_ok,
        Roster.across_cons, List.filterMap_append]
    · rw [Roster.across_cons, ← List.append_assoc]
      exact h'

end Emptying

/-! ## Cached hashes -/

theorem keepsHash_of_putEach {losses : List (Loss V)} (h : Store.putEach es s = .ok (losses, w)) :
    s.heap.KeepsHash w.heap e := by
  induction es generalizing s losses with
  | nil =>
    cases h
    exact .refl _ _
  | cons f es ih =>
    obtain ⟨⟨gone, s₁⟩, hput, h⟩ := Fault.bind_eq_ok_iff.mp h
    obtain ⟨⟨rest, s₂⟩, hrest, h⟩ := Fault.bind_eq_ok_iff.mp h
    cases h
    exact (keepsHash_of_put hput).trans (ih hrest)

theorem keepsHash_of_unhashEach {results : List (Except Refusal Unit)} {losses : List (Loss V)}
    (h : Store.unhashEach t es s = .ok (results, losses, w)) : s.heap.KeepsHash w.heap e := by
  induction es generalizing s results losses with
  | nil =>
    cases h
    exact .refl _ _
  | cons f es ih =>
    obtain ⟨⟨result, gone, s₁⟩, hunhash, h⟩ := Fault.bind_eq_ok_iff.mp h
    obtain ⟨⟨gone', s₂⟩, hput, h⟩ := Fault.bind_eq_ok_iff.mp h
    obtain ⟨⟨results', rest, s₃⟩, hrest, h⟩ := Fault.bind_eq_ok_iff.mp h
    cases h
    exact (keepsHash_of_unhashPut hunhash).trans ((keepsHash_of_put hput).trans (ih hrest))

theorem keepsHash_of_holdAndRemove {results : List (Except Refusal Unit)}
    {losses : List (Loss V)} (h : s.holdAndRemove t U = .ok (results, losses, w)) :
    s.heap.KeepsHash w.heap e := by
  obtain ⟨buckets, -, h⟩ := Fault.bind_eq_ok_iff.mp h
  obtain ⟨⟨visits, s₁⟩, hread, h⟩ := Fault.bind_eq_ok_iff.mp h
  obtain ⟨⟨results', losses₁, s₂⟩, hunhash, h⟩ := Fault.bind_eq_ok_iff.mp h
  obtain ⟨⟨losses₂, s₃⟩, hput, h⟩ := Fault.bind_eq_ok_iff.mp h
  cases h
  exact (keepsHash_of_readBuckets hread).trans
    ((keepsHash_of_unhashEach hunhash).trans (keepsHash_of_putEach hput))

theorem keepsHash_of_traverseBuckets {buckets : List Nat} {number : Nat} {losses : List (Loss V)}
    (h : Store.traverseBuckets t choose buckets number s = .ok (losses, w)) :
    s.heap.KeepsHash w.heap e := by
  induction buckets generalizing s number losses with
  | nil =>
    cases h
    exact .refl _ _
  | cons i buckets ih =>
    obtain ⟨walk, hwalk, h⟩ := Fault.bind_eq_ok_iff.mp h
    obtain ⟨⟨losses₁, s₁⟩, hput, h⟩ := Fault.bind_eq_ok_iff.mp h
    obtain ⟨⟨losses₂, s₂⟩, hrest, h⟩ := Fault.bind_eq_ok_iff.mp h
    cases h
    exact (keepsHash_of_walkBucket hwalk).trans ((keepsHash_of_putEach hput).trans (ih hrest))

theorem keepsHash_of_drainBuckets {buckets : List Nat} {drained : Nat} {losses : List (Loss V)}
    (h : Store.drainBuckets t buckets drained s = .ok (losses, w)) :
    s.heap.KeepsHash w.heap e := by
  induction buckets generalizing s drained losses with
  | nil =>
    cases h
    exact .refl _ _
  | cons i buckets ih =>
    obtain ⟨⟨released, s₁⟩, hdrain, h⟩ := Fault.bind_eq_ok_iff.mp h
    obtain ⟨⟨losses₁, s₂⟩, hput, h⟩ := Fault.bind_eq_ok_iff.mp h
    obtain ⟨⟨losses₂, s₃⟩, hrest, h⟩ := Fault.bind_eq_ok_iff.mp h
    cases h
    exact (keepsHash_of_drainBucket hdrain).trans ((keepsHash_of_putEach hput).trans (ih hrest))

theorem keepsHash_of_traverse {losses : List (Loss V)}
    (h : s.traverse t choose = .ok (losses, w)) : s.heap.KeepsHash w.heap e := by
  obtain ⟨buckets, -, h⟩ := Fault.bind_eq_ok_iff.mp h
  exact keepsHash_of_traverseBuckets h

theorem keepsHash_of_dropTable {losses : List (Loss V)} (h : s.dropTable t = .ok (losses, w)) :
    s.heap.KeepsHash w.heap e := by
  obtain ⟨buckets, -, h⟩ := Fault.bind_eq_ok_iff.mp h
  exact keepsHash_of_drainBuckets h

/-! ## All three -/

variable {trace : List (Call V K × Reply V)} {table : Table V K}

theorem Agrees.emptying (hs : s.Agrees l) (hidle : s.locks = []) (t : TableId) :
    Emptying l t [] [] s :=
  ⟨l, .refl l t, hs, hidle⟩

theorem Emptying.congr (h : Emptying l t out owed w) (howed : es.Perm owed) :
    Emptying l t out es w := by
  obtain ⟨m, hm, hw, hidle⟩ := h
  exact ⟨m, hm.congr (fun _ => Iff.rfl) howed, hw, hidle⟩

/-- Two ways on which the same elements have left end in the same state if no reference is to be put
any more. -/
theorem Emptying.unique {w' : Store V K} (h : Emptying l t out owed w)
    (h' : Emptying l t out owed w') (hkeeps : ∀ e, s.heap.KeepsHash w.heap e)
    (hkeeps' : ∀ e, s.heap.KeepsHash w'.heap e) : w'.heap = w.heap ∧ w'.tables = w.tables := by
  obtain ⟨m, hm, hw, -⟩ := h
  obtain ⟨m', hm', hw', -⟩ := h'
  obtain rfl := hm.unique hm'
  exact hw.eq_of_keepsHash hw' hkeeps hkeeps'

section Ways

variable (hs : s.Agrees l) (hidle : s.locks = []) (hr : l.roster? t = some r)

include hs hidle hr

/-- To hold the elements of a table and take some of them out destroys these in their order. -/
theorem Agrees.holdAndRemove (U : Finset ElementId) :
    ∃ w, s.holdAndRemove t U = .ok (((s.order t).filter (· ∈ U)).map fun _ => .ok (),
        ((s.order t).filter (· ∈ U)).filterMap s.loss?, w) ∧
      Emptying l t ((s.order t).filter (· ∈ U)) [] w := by
  have horder := hs.order_eq hr
  have hnodup : (s.order t).Nodup := by
    rw [horder]
    exact Roster.nodup_across (hs.nodup t r hr) List.nodup_range
  obtain ⟨visits, w₁, hread, helements, h₁⟩ := Agrees.exists_held hs hr hidle
  rw [← horder] at helements h₁
  set chosen := (s.order t).filter (· ∈ U) with hchosen
  set others := (s.order t).filter (· ∉ U) with hothers
  have hperm : (chosen ++ others).Perm (s.order t) := by
    have hsplit := List.filter_append_perm (· ∈ U) (s.order t)
    simpa [hchosen, hothers] using hsplit
  have hsub : ∀ {p : ElementId → Bool}, (s.order t).filter p ⊆ r.elements := fun he =>
    (hs.mem_order_iff hr).mp (List.mem_of_mem_filter he)
  obtain ⟨w₂, hunhash, h₂⟩ := Emptying.unhashEach hs hr (h₁.congr hperm) hsub
    (hperm.nodup_iff.mpr hnodup) fun _ _ => List.not_mem_nil
  rw [← List.append_nil others] at h₂
  obtain ⟨w, hput, h⟩ := Emptying.putEach hs hr h₂ hsub (by simpa using hnodup.filter _)
  -- the others are still in the table
  have hnone : others.filter (· ∈ [] ++ chosen) = [] := by
    refine List.filter_eq_nil_iff.mpr fun e he => ?_
    simp only [hothers, hchosen, List.mem_filter, List.nil_append] at he ⊢
    grind
  rw [hnone, List.filterMap_nil] at hput
  refine ⟨w, ?_, h⟩
  rw [← hs.filterMap_loss? hr]
  simp only [Store.holdAndRemove, hs.bucketRange hr, hread, helements, ← hchosen, ← hothers,
    hunhash, hput, Fault.ok_bind, Fault.pure_eq_ok, List.append_nil]

theorem Agrees.traverse (hpicks : s.Picks t choose U) :
    ∃ w, s.traverse t choose = .ok (((s.order t).filter (· ∈ U)).filterMap s.loss?, w) ∧
      Emptying l t ((s.order t).filter (· ∈ U)) [] w := by
  obtain ⟨w, hok, h⟩ := Emptying.traverseBuckets (U := U) hs hr 0 (hs.emptying hidle t)
    (fun i hi => List.mem_range.mp hi) List.nodup_range
    (List.disjoint_nil_left _) fun n e v he hv => by
      rw [← hs.order_eq hr] at he
      rw [Nat.zero_add]
      exact hpicks n e v he (hs.value?_eq ▸ hv)
  rw [← hs.order_eq hr] at hok h
  refine ⟨w, ?_, h⟩
  rw [← hs.filterMap_loss? hr]
  simp only [Store.traverse, hs.bucketRange hr, hok, Fault.ok_bind]

theorem Agrees.dropTable :
    ∃ w n, s.dropTable t = .ok ((s.order t).filterMap s.loss?, (w.freeTable t).note (.drained n)) ∧
      Emptying l t (s.order t) [] w := by
  obtain ⟨w, n, hok, h⟩ := Emptying.drainBuckets hs hr 0 (hs.emptying hidle t)
    (fun i hi => List.mem_range.mp hi) List.nodup_range (List.disjoint_nil_left _)
  rw [← hs.order_eq hr] at hok h
  refine ⟨w, n, ?_, h⟩
  have hloss := hs.filterMap_loss? hr fun _ => true
  rw [List.filter_true] at hloss
  rw [← hloss]
  simp only [Store.dropTable, hs.bucketRange hr, hok, Fault.ok_bind]

end Ways

/-- The elements of a set leave a table in the same way whether they are taken out one by one by
somebody who holds all of them, or by a traversal that is told to: the elements and the tables are
the same afterwards, word by word, and the same values go to the same releases in the same order,
namely those of the elements to which nobody but the table had a reference. And if no element stays,
dropping the table does the same, and forgets the table. -/
theorem Runs.ways_agree (h : Runs trace s) (ht : s.table? t = some table)
    (hpicks : s.Picks t choose U) :
    ∃ losses w₁ w₂, losses = ((s.order t).filter (· ∈ U)).filterMap s.loss? ∧
      s.holdAndRemove t U = .ok (((s.order t).filter (· ∈ U)).map fun _ => .ok (), losses, w₁) ∧
      s.traverse t choose = .ok (losses, w₂) ∧ w₂.heap = w₁.heap ∧ w₂.tables = w₁.tables ∧
      ((∀ e, s.InTable t e → e ∈ U) → ∃ w₃, s.dropTable t = .ok (losses, w₃) ∧
        w₃.heap = w₁.heap ∧ w₃.tables = (w₁.freeTable t).tables) := by
  obtain ⟨l, -, hs, hidle⟩ := h.exists_ledger
  obtain ⟨r, hr, -⟩ := hs.exists_roster ht
  obtain ⟨w₁, hok₁, h₁⟩ := hs.holdAndRemove hidle hr U
  obtain ⟨w₂, hok₂, h₂⟩ := hs.traverse hidle hr hpicks
  have hkeeps : ∀ e, s.heap.KeepsHash w₁.heap e := fun e => keepsHash_of_holdAndRemove hok₁
  obtain ⟨hheap, htables⟩ := h₁.unique h₂ hkeeps fun e => keepsHash_of_traverse hok₂
  refine ⟨_, w₁, w₂, rfl, hok₁, hok₂, hheap, htables, fun hall => ?_⟩
  have hwhole : (s.order t).filter (· ∈ U) = s.order t :=
    List.filter_eq_self.mpr fun e he =>
      decide_eq_true (hall e ((hs.inTable_iff hr).mpr ((hs.mem_order_iff hr).mp he)))
  obtain ⟨w, n, hok₃, h₃⟩ := hs.dropTable hidle hr
  rw [hwhole] at h₁ ⊢
  have hkeeps₃ : ∀ e, s.heap.KeepsHash ((w.freeTable t).note (.drained n)).heap e :=
    fun e => keepsHash_of_dropTable hok₃
  obtain ⟨hheap₃, htables₃⟩ := h₁.unique h₃ hkeeps hkeeps₃
  exact ⟨_, hok₃, hheap₃, congrArg (fun tables => tables.setIfInBounds t none) htables₃⟩

end Store

end HashIndex
