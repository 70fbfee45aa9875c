import HashIndex.Proofs.Call.Removal

/-!
# Two ways to visit a table

A traversal that may take elements out follows the links of a chain by a cursor, and one that only
reads has an iterator that counts down. As long as the first takes nothing out, they are the same:
the same elements are visited in the same order, and the same references are taken. What they visit
is also what two counters say, the length that is kept for each chain and the number of entries of
the table.

## Main definitions

* `Store.Lends`: references are taken, and nothing else happens.
* `Store.visitBuckets`: a traversal together with its visits.
* `Store.Surveys`: what visiting a whole table shows.

## Main statements

* `Store.lends_of_readBuckets`: reading lends what is held.
* `Store.Agrees.visits_eq`: the cursor and the iterator meet the same elements.
* `Store.Runs.surveys`: after any run, both ways of visiting and both counters agree.
-/

namespace HashIndex

variable {V K : Type}

namespace Store

/-- References to the elements `held` are taken, and nothing else happens. -/
structure Lends (s : Store V K) (held : List ElementId) (s' : Store V K) : Prop where
  size : s'.heap.size = s.heap.size
  element : ∀ e, s'.heap.get? e =
    (s.heap.get? e).map fun x => { x with count := x.count + held.count e }
  tables : s'.tables = s.tables
  locks : s'.locks = s.locks
  journal : s'.journal = s.journal

/-- Visit several buckets, where `number` elements were visited before, and put the references to
elements that were taken out before the next bucket is visited. The visits of each bucket form a
list of their own. -/
def visitBuckets (t : TableId) (choose : Nat → V → Choice) :
    List Nat → Nat → Store V K →
      Except Fault (List (List (Visit V)) × List (Loss V) × Store V K)
  | [], _, s => .ok ([], [], s)
  | i :: buckets, number, s => do
    let walk ← s.walkBucket t i number choose
    let (losses, s) ← putEach walk.released walk.store
    let (blocks, losses', s) ← visitBuckets t choose buckets (number + walk.visits.length) s
    return (walk.visits :: blocks, losses ++ losses', s)

variable {s s' s₁ s₂ : Store V K} {l l' : Ledger V K} {t : TableId} {r : Roster V K}
  {table : Table V K} {i number steps : Nat} {e : ElementId} {held held' : List ElementId}
  {visits : List (Visit V)} {choose : Nat → V → Bool} {buckets : List Nat}

/-! ## Lending -/

theorem Lends.refl (s : Store V K) : s.Lends [] s :=
  ⟨rfl, fun e => by cases s.heap.get? e <;> rfl, rfl, rfl, rfl⟩

theorem Lends.trans (h : s.Lends held s₁) (h' : s₁.Lends held' s') :
    s.Lends (held ++ held') s' := by
  refine ⟨h'.size.trans h.size, fun e => ?_, h'.tables.trans h.tables, h'.locks.trans h.locks,
    h'.journal.trans h.journal⟩
  rw [h'.element, h.element, Option.map_map]
  simp only [Function.comp_def, List.count_append, Nat.add_assoc]

/-- What is left is known from what was lent. -/
theorem Lends.unique (h : s.Lends held s₁) (h' : s.Lends held s₂) : s₂ = s₁ := by
  have hheap : s₂.heap = s₁.heap := Heap.eq_of_get? (h'.size.trans h.size.symm) fun e => by
    rw [h'.element, h.element]
  obtain ⟨heap₁, tables₁, locks₁, journal₁⟩ := s₁
  obtain ⟨heap₂, tables₂, locks₂, journal₂⟩ := s₂
  obtain rfl : heap₂ = heap₁ := hheap
  obtain rfl : tables₂ = tables₁ := h'.tables.trans h.tables.symm
  obtain rfl : locks₂ = locks₁ := h'.locks.trans h.locks.symm
  obtain rfl : journal₂ = journal₁ := h'.journal.trans h.journal.symm
  rfl

/-- What happens under a lock is the same to those outside. -/
theorem Lends.locked {lock : Lock} (hlock : s.lock lock = .ok s₁) (h : s₁.Lends held s₂) :
    s.Lends held (s₂.unlock lock) := by
  obtain ⟨hidle, rfl⟩ := lock_eq_ok_iff.mp hlock
  refine ⟨h.size, h.element, h.tables, ?_, h.journal⟩
  simp [unlock, h.locks, hidle]

theorem lends_of_hold (h : s.hold e = .ok s') : s.Lends [e] s' := by
  obtain ⟨heap, hupdate, h⟩ := Fault.bind_eq_ok_iff.mp h
  obtain ⟨x, hx, hupdate⟩ := Fault.bind_eq_ok_iff.mp hupdate
  cases h
  cases hupdate
  rw [Heap.read_eq_ok_iff] at hx
  refine ⟨Heap.size_write _ _ _, fun f => ?_, rfl, rfl, rfl⟩
  simp only [Heap.get?_write hx]
  by_cases hf : f = e
  · simp [hf, hx]
  · cases s.heap.get? f <;> simp [hf, List.count_eq_zero.mpr]

theorem lends_of_holdIf {wanted : Bool} (h : s.holdIf wanted e = .ok s') :
    s.Lends (if wanted then [e] else []) s' := by
  cases wanted with
  | false =>
    cases h
    exact .refl s
  | true => exact lends_of_hold h

theorem lends_of_treat {choice : Choice} (hstays : choice.unhash = false)
    (h : s.treat t i e choice = .ok s') : s.Lends (if choice.hold then [e] else []) s' := by
  obtain ⟨s₁, hhold, h⟩ := Fault.bind_eq_ok_iff.mp h
  rw [hstays] at h
  cases h
  exact lends_of_holdIf hhold

/-- A walk that takes nothing out lends what is held. -/
theorem lends_of_walkFrom {choose : Nat → V → Choice} (hstays : ∀ n v, (choose n v).unhash = false)
    {cursor : Option ElementId} {walk : Walk V K}
    (h : walkFrom t i choose steps cursor number s = .ok walk) :
    s.Lends (Ledger.heldBy walk.visits) walk.store := by
  induction steps generalizing s cursor number walk with
  | zero =>
    cases cursor <;> cases h
    exact .refl _
  | succ steps ih =>
    cases cursor with
    | none =>
      cases h
      exact .refl _
    | some e =>
      obtain ⟨next, -, h⟩ := Fault.bind_eq_ok_iff.mp h
      obtain ⟨x, -, h⟩ := Fault.bind_eq_ok_iff.mp h
      obtain ⟨s₁, htreat, h⟩ := Fault.bind_eq_ok_iff.mp h
      obtain ⟨rest, hrest, h⟩ := Fault.bind_eq_ok_iff.mp h
      cases h
      have hlends := (lends_of_treat (hstays number x.value) htreat).trans (ih hrest)
      rw [Ledger.heldBy_cons]
      exact hlends

theorem lends_of_walkBucket {choose : Nat → V → Choice}
    (hstays : ∀ n v, (choose n v).unhash = false) {walk : Walk V K}
    (h : s.walkBucket t i number choose = .ok walk) :
    s.Lends (Ledger.heldBy walk.visits) walk.store := by
  obtain ⟨s₁, hlock, h⟩ := Fault.bind_eq_ok_iff.mp h
  obtain ⟨c, -, h⟩ := Fault.bind_eq_ok_iff.mp h
  obtain ⟨walk', hwalk, h⟩ := Fault.bind_eq_ok_iff.mp h
  cases h
  exact .locked hlock (lends_of_walkFrom hstays hwalk)

theorem lends_of_readEach {elements : List (ElementId × Element V)}
    (h : readEach choose elements number s = .ok (visits, s')) :
    s.Lends (Ledger.heldBy visits) s' := by
  induction elements generalizing s number visits with
  | nil =>
    cases h
    exact .refl _
  | cons entry elements ih =>
    obtain ⟨s₁, hhold, h⟩ := Fault.bind_eq_ok_iff.mp h
    obtain ⟨⟨rest, s₂⟩, hrest, h⟩ := Fault.bind_eq_ok_iff.mp h
    cases h
    rw [Ledger.heldBy_cons]
    exact (lends_of_holdIf hhold).trans (ih hrest)

theorem lends_of_readBucket (h : s.readBucket t i number choose = .ok (visits, s')) :
    s.Lends (Ledger.heldBy visits) s' := by
  obtain ⟨s₁, hlock, h⟩ := Fault.bind_eq_ok_iff.mp h
  obtain ⟨c, -, h⟩ := Fault.bind_eq_ok_iff.mp h
  obtain ⟨elements, -, h⟩ := Fault.bind_eq_ok_iff.mp h
  obtain ⟨⟨visits', s₂⟩, heach, h⟩ := Fault.bind_eq_ok_iff.mp h
  cases h
  exact .locked hlock (lends_of_readEach heach)

/-- The lengths of chains are read, and nothing else happens. -/
theorem eq_of_chainLengths {before lengths : List Nat}
    (h : chainLengths t buckets before s = .ok (lengths, s')) : s' = s := by
  induction buckets generalizing s before with
  | nil =>
    cases h
    rfl
  | cons i buckets ih =>
    obtain ⟨⟨length, s₁⟩, hlength, h⟩ := Fault.bind_eq_ok_iff.mp h
    obtain ⟨s₂, hlock, hlength⟩ := Fault.bind_eq_ok_iff.mp hlength
    obtain ⟨c, -, hlength⟩ := Fault.bind_eq_ok_iff.mp hlength
    cases hlength
    rw [ih h]
    exact (Lends.refl s).unique (.locked hlock (.refl s₂))

end Store

/-! ## What is visited -/

namespace Roster

/-- The bucket of a hash, by the number of buckets that there are. -/
theorem slot_eq (r : Roster V K) (hash : UInt32) :
    r.slot hash = hash.toNat &&& (r.capacity.size - 1) := by
  rw [slot, UInt64.toNat_and, UInt32.toNat_toUInt64, Capacity.toNat_mask]

theorem length_across_range (r : Roster V K) :
    (r.across (List.range r.capacity.size)).length = r.entries.length := by
  rw [across, List.length_flatMap, ← r.sum_length_bucket]
  simp

end Roster

namespace Ledger

variable {l l' : Ledger V K} {t : TableId} {choose : Nat → V → Bool} {buckets : List Nat}
  {number : Nat} {blocks : List (List (Visit V))}

theorem number_of_survey (h : surveyBuckets t choose buckets number l = some (blocks, l')) :
    blocks.flatten.map Visit.number = List.range' number blocks.flatten.length := by
  induction buckets generalizing l number blocks with
  | nil =>
    obtain ⟨rfl, rfl⟩ := by simpa [surveyBuckets] using h
    rfl
  | cons i buckets ih =>
    simp only [surveyBuckets, Option.bind_eq_bind, Option.bind_eq_some_iff, Option.pure_def,
      Option.some.injEq, Prod.mk.injEq, Prod.exists, walk_eq_some_iff] at h
    obtain ⟨first, l₁, ⟨r, -, -, hfirst⟩, rest, l₂, hrest, rfl, rfl⟩ := h
    rw [List.flatten_cons, List.map_append, number_of_visit hfirst, ih hrest, List.length_append,
      List.range'_append_1]

/-- The visits, block by block, go to the entries of the buckets. -/
theorem entries_of_shows {value? : ElementId → Option V} {lists : List (List (ElementId × UInt32))}
    (h : List.Forall₂ (Shows value?) lists blocks) :
    blocks.map (fun block => block.map fun v => (v.element, v.hash)) = lists := by
  induction h with
  | nil => rfl
  | cons hshows _ ih => rw [List.map_cons, hshows.entries, ih]

/-- A block goes to the entries of the bucket with its number. -/
theorem bucket_of_entries {bucket : Nat → List (ElementId × UInt32)} {n i : Nat}
    {block : List (Visit V)} (h : blocks.map (fun block => block.map fun v => (v.element, v.hash)) =
      (List.range n).map bucket) (hi : blocks[i]? = some block) :
    i < n ∧ block.map (fun v => (v.element, v.hash)) = bucket i := by
  have hlist := congrArg (fun lists => lists[i]?) h
  simp only [List.getElem?_map, hi, Option.map_some] at hlist
  obtain ⟨j, hj, hbucket⟩ := Option.map_eq_some_iff.mp hlist.symm
  obtain ⟨hlt, rfl⟩ := List.getElem?_eq_some_iff.mp hj
  rw [List.length_range] at hlt
  exact ⟨hlt, by rw [← hbucket, List.getElem_range]⟩

theorem value_of_shows {value? : ElementId → Option V} {lists : List (List (ElementId × UInt32))}
    (h : List.Forall₂ (Shows value?) lists blocks) :
    ∀ v ∈ blocks.flatten, value? v.element = some v.value := by
  induction h with
  | nil => simp
  | cons hshows _ ih =>
    intro v hv
    rcases List.mem_append.mp (List.flatten_cons ▸ hv) with hv | hv
    · exact hshows.value v hv
    · exact ih v hv

end Ledger

namespace Store

/-- What visiting all buckets of a table shows if nothing is taken out, `choose` says what is held,
and `s'` is left. A traversal that may take elements out, and one that only reads, visit the same
`blocks`, one for each bucket. -/
structure Surveys (s : Store V K) (t : TableId) (table : Table V K) (choose : Nat → V → Bool)
    (blocks : List (List (Visit V))) (s' : Store V K) : Prop where
  /-- The visits of the traversal that may take elements out; no value is lost. -/
  visits : visitBuckets t (fun n v => ⟨choose n v, false⟩) (List.range table.buckets.size) 0 s =
    .ok (blocks, [], s')
  /-- The visits of the traversal that only reads. -/
  reads : readBuckets t choose (List.range table.buckets.size) [] 0 s = .ok (blocks, s')
  lengths : chainLengths t (List.range table.buckets.size) [] s = .ok (blocks.map List.length, s)
  entries : blocks.flatten.length = table.entries
  blocks_length : blocks.length = table.buckets.size
  members : ∀ i block, blocks[i]? = some block →
    s.members? t i = some (block.map Visit.element)
  slot : ∀ i block, blocks[i]? = some block → ∀ v ∈ block,
    v.hash.toNat &&& (table.buckets.size - 1) = i
  words : ∀ v ∈ blocks.flatten, ∃ x, s.heap.get? v.element = some x ∧ v.value = x.value ∧
    v.hash = x.hash
  numbers : blocks.flatten.map Visit.number = List.range blocks.flatten.length
  choice : ∀ v ∈ blocks.flatten, v.choice = ⟨choose v.number v.value, false⟩
  nodup : (blocks.flatten.map Visit.element).Nodup
  /-- The chains have the elements that are visited. -/
  linked : ∀ e, e ∈ blocks.flatten.map Visit.element ↔ s.InTable t e
  /-- The elements that are visited say so themselves. -/
  owned : ∀ e, e ∈ blocks.flatten.map Visit.element ↔
    ∃ x, s.heap.get? e = some x ∧ x.owner = .table t
  lends : s.Lends (Ledger.heldBy blocks.flatten) s'

variable {s s' : Store V K} {l l' : Ledger V K} {t : TableId} {r : Roster V K}
  {table : Table V K} {i number : Nat} {e : ElementId} {choose : Nat → V → Bool}
  {buckets : List Nat} {visits : List (Visit V)} {blocks : List (List (Visit V))}

theorem Surveys.order_eq (h : s.Surveys t table choose blocks s') (ht : s.table? t = some table) :
    s.order t = blocks.flatten.map Visit.element := by
  have hbuckets : (List.range table.buckets.size).map (fun i => (s.members? t i).getD []) =
      blocks.map (List.map Visit.element) := by
    apply List.ext_getElem
    · simp [h.blocks_length]
    · intro i hi hi'
      rw [List.length_map] at hi'
      simp [h.members i _ (List.getElem?_eq_getElem hi')]
  rw [order, ht, Option.map_some, Option.getD_some, List.flatMap, hbuckets, List.map_flatten]

/-- The cursor and the iterator meet the same elements of a bucket. -/
theorem Agrees.visits_eq (hs : s.Agrees l) (hidle : s.locks = [])
    (hwalk : l.walk t i number (fun n v => ⟨choose n v, false⟩) = some (visits, l')) :
    ∃ s', s.walkBucket t i number (fun n v => ⟨choose n v, false⟩) = .ok ⟨visits, [], s'⟩ ∧
      s.readBucket t i number choose = .ok (visits, s') ∧ s'.Agrees l' ∧ s'.locks = [] ∧
      s.Lends (Ledger.heldBy visits) s' := by
  obtain ⟨s₁, hok₁, hs₁, hidle₁⟩ := hs.walkBucket hidle hwalk
  obtain ⟨s₂, hok₂, -⟩ := hs.readBucket hidle hwalk
  have hlends := lends_of_walkBucket (fun _ _ => rfl) hok₁
  obtain rfl := hlends.unique (lends_of_readBucket hok₂)
  obtain ⟨r, -, -, hvisit⟩ := Ledger.walk_eq_some_iff.mp hwalk
  have hnone : Ledger.takenOut visits = [] := Ledger.takenOut_eq_nil fun v hv => by
    rw [Ledger.choice_of_visit hvisit v hv]
  rw [hnone] at hok₁
  exact ⟨s₂, hok₁, hok₂, hs₁, hidle₁, hlends⟩

/-- So they do in several buckets. -/
theorem Agrees.blocks_eq (hs : s.Agrees l) (hidle : s.locks = [])
    (hsurvey : Ledger.surveyBuckets t choose buckets number l = some (blocks, l'))
    (before : List (List (Visit V))) :
    ∃ s', visitBuckets t (fun n v => ⟨choose n v, false⟩) buckets number s = .ok (blocks, [], s') ∧
      Store.readBuckets t choose buckets before number s = .ok (before.reverse ++ blocks, s') ∧
      s.Lends (Ledger.heldBy blocks.flatten) s' := by
  induction buckets generalizing s l number before blocks with
  | nil =>
    obtain ⟨rfl, rfl⟩ := by simpa [Ledger.surveyBuckets] using hsurvey
    exact ⟨s, rfl, by simp [Store.readBuckets], .refl s⟩
  | cons i buckets ih =>
    simp only [Ledger.surveyBuckets, Option.bind_eq_bind, Option.bind_eq_some_iff,
      Option.pure_def, Option.some.injEq, Prod.mk.injEq, Prod.exists] at hsurvey
    obtain ⟨first, l₁, hwalk, rest, l₂, hrest, rfl, rfl⟩ := hsurvey
    obtain ⟨s₁, hvisit, hread, hs₁, hidle₁, hlends⟩ := hs.visits_eq hidle hwalk
    obtain ⟨s', hvisits, hreads, hlends'⟩ := ih hs₁ hidle₁ hrest (first :: before)
    refine ⟨s', ?_, ?_, ?_⟩
    · simp only [visitBuckets, hvisit, putEach, hvisits, Fault.ok_bind, Fault.pure_eq_ok,
        List.append_nil]
    · simp only [Store.readBuckets, hread, hreads, Fault.ok_bind, List.reverse_cons,
        List.append_assoc, List.singleton_append]
    · rw [List.flatten_cons, Ledger.heldBy_append]
      exact hlends.trans hlends'

/-- A store that agrees with a ledger shows the same in all ways. -/
theorem Agrees.surveys (hs : s.Agrees l) (hidle : s.locks = []) (ht : s.table? t = some table)
    (choose : Nat → V → Bool) : ∃ blocks s', s.Surveys t table choose blocks s' := by
  obtain ⟨r, hr, htable⟩ := hs.exists_roster ht
  obtain ⟨blocks, l', hsurvey⟩ := Ledger.exists_survey hs.covered hr choose
    (List.range r.capacity.size) (fun i hi => List.mem_range.mp hi) 0
  obtain ⟨s', hvisits, hreads, hlends⟩ := hs.blocks_eq hidle hsurvey []
  obtain ⟨s₁, hlengths, -⟩ := hs.chainLengths hidle hr (List.range r.capacity.size)
    (fun i hi => List.mem_range.mp hi) []
  obtain rfl := eq_of_chainLengths hlengths
  have hshows := Ledger.shows_of_survey hr hsurvey
  have hentries := Ledger.entries_of_shows hshows
  have helements : blocks.flatten.map Visit.element =
      r.across (List.range r.capacity.size) := by
    rw [Ledger.elements_of_shows hshows, List.flatMap_map]
    rfl
  have hvisit : ∀ i block, blocks[i]? = some block → ∀ v ∈ block,
      (v.element, v.hash) ∈ r.entries ∧ r.slot v.hash = i := by
    intro i block hi v hv
    rw [← Roster.mem_bucket_iff, ← (Ledger.bucket_of_entries hentries hi).2]
    exact List.mem_map_of_mem hv
  have hlinked : ∀ e, e ∈ blocks.flatten.map Visit.element ↔ e ∈ r.elements := fun e => by
    rw [helements, Roster.mem_across_range_iff]
  refine ⟨blocks, s', {
    visits := ?visits, reads := ?reads, lengths := ?lengths, entries := ?entries
    blocks_length := ?blocksLength, members := ?members, slot := ?slot, words := ?words
    numbers := ?numbers, choice := Ledger.choice_of_survey hsurvey, nodup := ?nodup
    linked := ?linked, owned := ?owned, lends := hlends }⟩
  case visits => rw [htable.size, hvisits]
  case reads => rw [htable.size, hreads, List.reverse_nil, List.nil_append]
  case lengths =>
    have hsame := congrArg (List.map List.length) hentries
    simp only [List.map_map, Function.comp_def, List.length_map] at hsame
    rw [htable.size, hlengths, List.reverse_nil, List.nil_append, ← hsame]
  case entries =>
    rw [htable.entries, ← r.length_across_range, ← helements, List.length_map]
  case blocksLength =>
    have hsame := congrArg List.length hentries
    simp only [List.length_map, List.length_range] at hsame
    rw [hsame, htable.size]
  case members =>
    intro i block hi
    obtain ⟨hlt, hbucket⟩ := Ledger.bucket_of_entries hentries hi
    refine hs.members?_eq_some_iff.mpr ⟨r, hr, hlt, ?_⟩
    rw [← hbucket, List.map_map]
    rfl
  case slot =>
    intro i block hi v hv
    rw [htable.size, ← Roster.slot_eq]
    exact (hvisit i block hi v hv).2
  case words =>
    intro v hv
    obtain ⟨block, hmem, hv'⟩ := List.mem_flatten.mp hv
    obtain ⟨i, hi⟩ := List.mem_iff_getElem?.mp hmem
    obtain ⟨x, hx, -, hhash⟩ := hs.listed t r hr _ _ (hvisit i block hi v hv').1
    have hvalue := Ledger.value_of_shows hshows v hv
    rw [← hs.value?_eq, value?, hx, Option.map_some, Option.some.injEq] at hvalue
    exact ⟨x, hx, hvalue.symm, hhash.symm⟩
  case numbers => rw [Ledger.number_of_survey hsurvey, List.range_eq_range']
  case nodup =>
    rw [helements]
    exact Roster.nodup_across (hs.nodup t r hr) List.nodup_range
  case linked => exact fun e => (hlinked e).trans (hs.inTable_iff hr).symm
  case owned =>
    intro e
    rw [hlinked]
    constructor
    · intro he
      obtain ⟨hash, he⟩ := Roster.mem_elements_iff.mp he
      obtain ⟨x, hx, howner, -⟩ := hs.listed t r hr e hash he
      exact ⟨x, hx, howner⟩
    · rintro ⟨x, hx, howner⟩
      exact (hs.owner_eq_iff hx hr).mp howner

/-- After any run, all elements of a table and no others are visited, once each and bucket by
bucket, in both ways; and both counters say so. -/
theorem Runs.surveys {trace : List (Call V K × Reply V)} (h : Runs trace s)
    (ht : s.table? t = some table) (choose : Nat → V → Bool) :
    ∃ blocks s', s.Surveys t table choose blocks s' := by
  obtain ⟨l, -, hs, hidle⟩ := h.exists_ledger
  exact hs.surveys hidle ht choose

end Store

end HashIndex
