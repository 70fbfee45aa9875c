import HashIndex.Proofs.Ledger
import HashIndex.Proofs.Thread

/-!
# Stores that agree with a ledger

A store is an index as it is kept: chains of linked elements, an owner word and a cached hash in
each element, a count of references, a counter of entries. It agrees with a ledger if all of that
says what the ledger says. The operations on references and tables are looked at here: if the ledger
has an outcome, so has the store, it is the same one, and the two agree afterwards.

## Main definitions

* `Element.Agrees`, `Table.Agrees`, `Store.Agrees`: agreement with an account, a roster, a ledger.

## Main statements

* `Store.Agrees.create`, `Store.Agrees.hold`, `Store.Agrees.put`: references.
* `Store.Agrees.createTable`, `Store.Agrees.freeTable`: tables.
-/

namespace HashIndex

variable {V K : Type}

/-- The words of an element agree with its account: every reference is counted, the one of a table
included, nobody is about to link it, and it has no neighbours unless it is linked. -/
structure Element.Agrees (x : Element V) (a : Account V) : Prop where
  value : x.value = a.value
  release : x.release = a.release
  count : x.count = a.references + if x.isHashed then 1 else 0
  unclaimed : x.owner ≠ .claimed
  unlinked : x.isHashed = false → x.prev = none ∧ x.next = none

/-- A table agrees with its roster: it has the buckets of its capacity, the chain of a bucket is
what falls into it, and every entry is counted. -/
structure Table.Agrees (h : Heap V) (table : Table V K) (r : Roster V K) : Prop where
  strategy : table.strategy = r.strategy
  capacity : table.capacity = r.capacity
  size : table.buckets.size = r.capacity.size
  entries : table.entries = r.entries.length
  chain : ∀ i < r.capacity.size, ∃ c, table.buckets[i]? = some c ∧
    c.Represents h ((r.bucket i).map Prod.fst)

/-- The elements and the tables agree with their accounts and rosters, and the owner word and the
cached hash of an element say where it is listed. -/
structure Store.Agrees (s : Store V K) (l : Ledger V K) : Prop where
  elements : s.heap.size = l.accounts.length
  tables : s.tables.size = l.rosters.length
  element : ∀ e, Option.Rel Element.Agrees (s.heap.get? e) (l.account? e)
  table : ∀ t, Option.Rel (Table.Agrees s.heap) (s.table? t) (l.roster? t)
  listed : ∀ t r, l.roster? t = some r → ∀ e hash, (e, hash) ∈ r.entries →
    ∃ x, s.heap.get? e = some x ∧ x.owner = .table t ∧ x.hash = hash
  owned : ∀ e x t, s.heap.get? e = some x → x.owner = .table t →
    ∃ r, l.roster? t = some r ∧ e ∈ r.elements
  nodup : ∀ t r, l.roster? t = some r → r.elements.Nodup

theorem rel_of_rel {α β : Type} {p q : α → β → Prop} {o : Option α} {o' : Option β}
    (himp : ∀ a b, o = some a → o' = some b → p a b → q a b) (hrel : Option.Rel p o o') :
    Option.Rel q o o' := by
  cases hrel with
  | none => exact .none
  | some h => exact .some (himp _ _ rfl rfl h)

theorem rel_map_right {α β γ : Type} {p : α → β → Prop} {q : α → γ → Prop} {f : β → γ}
    {o : Option α} {o' : Option β} (himp : ∀ a b, p a b → q a (f b)) (hrel : Option.Rel p o o') :
    Option.Rel q o (o'.map f) := by
  cases hrel with
  | none => exact .none
  | some h => exact .some (himp _ _ h)

theorem Table.Agrees.congr {h h' : Heap V} {table : Table V K} {r : Roster V K}
    (hlinks : ∀ i < r.capacity.size, ∀ entry ∈ r.bucket i, h'.links entry.1 = h.links entry.1)
    (ht : table.Agrees h r) : table.Agrees h' r := by
  refine ⟨ht.strategy, ht.capacity, ht.size, ht.entries, fun i hi => ?_⟩
  obtain ⟨c, hc, hrep⟩ := ht.chain i hi
  refine ⟨c, hc, hrep.congr fun e he => ?_⟩
  obtain ⟨entry, hentry, rfl⟩ := List.mem_map.mp he
  exact hlinks i hi entry hentry

theorem Element.isHashed_iff {x : Element V} : x.isHashed = true ↔ ∃ t, x.owner = .table t := by
  unfold isHashed
  cases x.owner <;> simp

namespace Store

variable {s s' : Store V K} {l : Ledger V K} {e f : ElementId} {t u : TableId} {x y : Element V}
  {a : Account V} {r : Roster V K} {table : Table V K}

/-! ## Access -/

theorem table_eq (ht : s.table? t = some table) : s.table t = .ok table := by
  simp [Store.table, ht]

theorem strategy_eq (ht : s.table? t = some table) : s.strategy t = .ok table.strategy := by
  simp only [Store.strategy, table_eq ht, Fault.ok_bind, Fault.pure_eq_ok]

theorem bucketRange_eq (ht : s.table? t = some table) :
    s.bucketRange t = .ok (List.range table.buckets.size) := by
  simp only [Store.bucketRange, table_eq ht, Fault.ok_bind, Fault.pure_eq_ok]

theorem chain_eq {i : Nat} {c : Chain} (ht : s.table? t = some table)
    (hc : table.buckets[i]? = some c) : s.chain t i = .ok c := by
  simp only [Store.chain, table_eq ht, Fault.ok_bind, Table.chain, hc]

theorem updateElement_eq (hx : s.heap.get? e = some x) (f : Element V → Element V) :
    s.updateElement e f = .ok { s with heap := s.heap.write e (f x) } := by
  simp only [updateElement, Heap.update_eq hx, Fault.ok_bind, Fault.pure_eq_ok]

theorem updateElementM_eq (hx : s.heap.get? e = some x) {f : Element V → Except Fault (Element V)}
    (hf : f x = .ok y) : s.updateElementM e f = .ok { s with heap := s.heap.write e y } := by
  simp only [updateElementM, Heap.updateM_eq hx hf, Fault.ok_bind, Fault.pure_eq_ok]

theorem select_eq (ht : s.table? t = some table) (hash : UInt32) :
    s.select t hash = .ok (table.slot hash,
      s.note (.selected hash (table.buckets.size - 1) (table.index hash))) := by
  simp only [select, table_eq ht, Fault.ok_bind, Fault.pure_eq_ok]

theorem exists_lock (s : Store V K) (hidle : s.locks = []) (lock : Lock) :
    ∃ s', s.lock lock = .ok s' ∧ s'.locks = [lock] ∧ s'.heap = s.heap ∧ s'.tables = s.tables :=
  ⟨{ s with locks := [lock] }, by simp only [Store.lock, hidle], rfl, rfl, rfl⟩

theorem table?_modifyTable (s : Store V K) (t : TableId) (g : Table V K → Table V K)
    (u : TableId) :
    (s.modifyTable t g).table? u = if u = t then (s.table? t).map g else s.table? u := by
  unfold Store.table? modifyTable
  rw [Array.getElem?_modify]
  by_cases hu : u = t
  · subst hu
    cases s.tables[u]? <;> simp
  · cases s.tables[u]? <;> simp [hu, Ne.symm hu]

theorem size_tables_modifyTable (s : Store V K) (t : TableId) (g : Table V K → Table V K) :
    (s.modifyTable t g).tables.size = s.tables.size := by
  simp [modifyTable]

theorem modifyTable_modifyTable (s : Store V K) (t : TableId) (f g : Table V K → Table V K) :
    (s.modifyTable t f).modifyTable t g = s.modifyTable t (g ∘ f) := by
  unfold modifyTable
  congr 1
  refine Array.ext (by simp) fun u hu _ => ?_
  by_cases htu : t = u <;> simp [Array.getElem_modify, htu]

theorem table?_setChain (ht : s.table? t = some table) (i : Nat) (c : Chain) :
    (s.setChain t i c).table? t = some (table.setChain i c) := by
  rw [setChain, table?_modifyTable, if_pos rfl, ht, Option.map_some]

theorem addEntry_eq (ht : s.table? t = some table) :
    s.addEntry t =
      .ok (s.modifyTable t fun table => { table with entries := table.entries + 1 }) := by
  simp only [addEntry, table_eq ht, Fault.ok_bind, Fault.pure_eq_ok]

theorem removeEntry_eq (ht : s.table? t = some table) (hpos : table.entries ≠ 0) :
    s.removeEntry t =
      .ok (s.modifyTable t fun table => { table with entries := table.entries - 1 }) := by
  simp only [removeEntry, table_eq ht, Fault.ok_bind, if_neg hpos, Fault.pure_eq_ok]

/-! ## What agreement says -/

theorem Agrees.congr (hs : s.Agrees l) (hheap : s'.heap = s.heap) (htables : s'.tables = s.tables) :
    s'.Agrees l := by
  have htable : s'.table? = s.table? := by
    funext t
    simp [Store.table?, htables]
  constructor
  · rw [hheap, hs.elements]
  · rw [htables, hs.tables]
  · rw [hheap]
    exact hs.element
  · rw [hheap, htable]
    exact hs.table
  · rw [hheap]
    exact hs.listed
  · rw [hheap]
    exact hs.owned
  · exact hs.nodup

theorem Agrees.exists_element (hs : s.Agrees l) (ha : l.account? e = some a) :
    ∃ x, s.heap.get? e = some x ∧ x.Agrees a := by
  have hrel := hs.element e
  rw [ha] at hrel
  cases hx : s.heap.get? e <;> simp_all

theorem Agrees.exists_account (hs : s.Agrees l) (hx : s.heap.get? e = some x) :
    ∃ a, l.account? e = some a ∧ x.Agrees a := by
  have hrel := hs.element e
  rw [hx] at hrel
  cases ha : l.account? e <;> simp_all

theorem Agrees.exists_table (hs : s.Agrees l) (hr : l.roster? t = some r) :
    ∃ table, s.table? t = some table ∧ table.Agrees s.heap r := by
  have hrel := hs.table t
  rw [hr] at hrel
  cases ht : s.table? t <;> simp_all

theorem Agrees.exists_roster (hs : s.Agrees l) (ht : s.table? t = some table) :
    ∃ r, l.roster? t = some r ∧ table.Agrees s.heap r := by
  have hrel := hs.table t
  rw [ht] at hrel
  cases hr : l.roster? t <;> simp_all

/-- An element is linked if and only if its owner word says so. -/
theorem Agrees.isLinked_eq (hs : s.Agrees l) (hx : s.heap.get? e = some x) :
    l.isLinked e = x.isHashed := by
  rw [Bool.eq_iff_iff, Ledger.isLinked_iff, Element.isHashed_iff]
  constructor
  · rintro ⟨t, r, hr, he⟩
    obtain ⟨hash, he⟩ := Roster.mem_elements_iff.mp he
    obtain ⟨y, hy, howner, -⟩ := hs.listed t r hr e hash he
    rw [hx, Option.some.injEq] at hy
    exact ⟨t, hy ▸ howner⟩
  · rintro ⟨t, howner⟩
    obtain ⟨r, hr, he⟩ := hs.owned e x t hx howner
    exact ⟨t, r, hr, he⟩

theorem Agrees.owner_eq_iff (hs : s.Agrees l) (hx : s.heap.get? e = some x)
    (hr : l.roster? t = some r) : x.owner = .table t ↔ e ∈ r.elements := by
  constructor
  · intro howner
    obtain ⟨r', hr', he⟩ := hs.owned e x t hx howner
    rw [hr, Option.some.injEq] at hr'
    exact hr' ▸ he
  · intro he
    obtain ⟨hash, he⟩ := Roster.mem_elements_iff.mp he
    obtain ⟨y, hy, howner, -⟩ := hs.listed t r hr e hash he
    rw [hx, Option.some.injEq] at hy
    exact hy ▸ howner

theorem Agrees.not_mem_elements (hs : s.Agrees l) (hx : s.heap.get? e = some x)
    (hhashed : x.isHashed = false) : ∀ t r, l.roster? t = some r → e ∉ r.elements := by
  intro t r hr he
  have hlinked := hs.isLinked_eq hx
  rw [Ledger.isLinked_iff.mpr ⟨t, r, hr, he⟩, hhashed] at hlinked
  cases hlinked

/-! ## Changes to one element -/

/-- Words other than the links and the owner may change together with the account. -/
theorem Agrees.write (hs : s.Agrees l) (hx : s.heap.get? e = some x) (ha : l.account? e = some a)
    {g : Account V → Account V} (hlinks : (y.prev, y.next) = (x.prev, x.next))
    (howner : y.owner = x.owner) (hhash : x.isHashed = true → y.hash = x.hash)
    (hy : y.Agrees (g a)) :
    Store.Agrees { s with heap := s.heap.write e y } (l.updateAccount e g) := by
  have hget := Heap.get?_write hx y
  have hsame := Heap.links_write_same hx hlinks
  constructor
  · simp [hs.elements]
  · exact hs.tables
  · intro f
    rw [hget, Ledger.account?_updateAccount]
    split
    · rw [ha]
      exact .some hy
    · exact hs.element f
  · intro t
    exact rel_of_rel (fun _ _ _ _ htable => htable.congr fun _ _ _ _ => hsame _) (hs.table t)
  · intro t r hr f hash hf
    obtain ⟨z, hz, hzowner, hzhash⟩ := hs.listed t r hr f hash hf
    rw [hget]
    split
    · subst f
      rw [hx, Option.some.injEq] at hz
      subst hz
      have hhashed := Element.isHashed_iff.mpr ⟨t, hzowner⟩
      exact ⟨y, rfl, howner.trans hzowner, (hhash hhashed).trans hzhash⟩
    · exact ⟨z, hz, hzowner, hzhash⟩
  · intro f z t hz hzowner
    rw [hget] at hz
    split at hz
    · subst f
      obtain rfl := Option.some.inj hz
      exact hs.owned e x t hx (howner ▸ hzowner)
    · exact hs.owned f z t hz hzowner
  · exact hs.nodup

/-! ## References -/

/-- A new element has a new account, with one reference. -/
theorem Agrees.create (hs : s.Agrees l) (value : V) :
    (s.create value).1 = (l.create value).1 ∧ (s.create value).2.Agrees (l.create value).2 := by
  have hfresh : s.heap.get? s.heap.size = none := by
    simp [Heap.get?, Heap.size]
  have hget : ∀ f, (s.create value).2.heap.get? f =
      if f = s.heap.size then some (.fresh value) else s.heap.get? f := by
    intro f
    by_cases hf : f = s.heap.size
    · rw [if_pos hf, hf]
      exact Heap.get?_allocate_self s.heap value
    · simp only [hf, if_false]
      exact Heap.get?_allocate_of_ne value hf
  refine ⟨hs.elements, ?_, hs.tables, ?_, ?_, ?_, ?_, hs.nodup⟩
  · simpa [Store.create, Heap.allocate, Heap.size, Ledger.create] using hs.elements
  · intro f
    rw [hget, Ledger.account?_create, hs.elements]
    split
    · exact .some ⟨rfl, rfl, rfl, by simp [Element.fresh], fun _ => ⟨rfl, rfl⟩⟩
    · exact hs.element f
  · intro t
    refine rel_of_rel (fun table r _ _ htable => ?_) (hs.table t)
    refine htable.congr fun i hi entry hentry => ?_
    obtain ⟨c, hc, hrep⟩ := htable.chain i hi
    obtain ⟨x, hx⟩ := hrep.get? (List.mem_map_of_mem hentry)
    have hne : entry.1 ≠ s.heap.size := Nat.ne_of_lt (Heap.lt_size_of_get? hx)
    simp only [Heap.links, hget, if_neg hne]
  · intro t r hr f hash hf
    obtain ⟨x, hx, hx'⟩ := hs.listed t r hr f hash hf
    have hne : f ≠ s.heap.size := Nat.ne_of_lt (Heap.lt_size_of_get? hx)
    exact ⟨x, by rw [hget, if_neg hne, hx], hx'⟩
  · intro f x t hx howner
    rw [hget] at hx
    split at hx
    · obtain rfl := Option.some.inj hx
      simp [Element.fresh] at howner
    · exact hs.owned f x t hx howner

theorem Agrees.lend (hs : s.Agrees l) (hx : s.heap.get? e = some x) :
    ∃ s', s.hold e = .ok s' ∧ s'.Agrees (l.lend e) ∧ s'.locks = s.locks ∧
      s'.tables = s.tables := by
  obtain ⟨a, ha, hxa⟩ := hs.exists_account hx
  refine ⟨_, updateElement_eq hx _, hs.write hx ha rfl rfl (fun _ => rfl) ?_, rfl, rfl⟩
  refine ⟨hxa.value, hxa.release, ?_, hxa.unclaimed, hxa.unlinked⟩
  have hcount := hxa.count
  change x.count + 1 = a.references + 1 + if x.isHashed then 1 else 0
  omega

theorem Agrees.hold (hs : s.Agrees l) {l' : Ledger V K} (hhold : l.hold e = some l') :
    ∃ s', s.hold e = .ok s' ∧ s'.Agrees l' ∧ s'.locks = s.locks := by
  simp only [Ledger.hold, Option.bind_eq_bind, Option.bind_eq_some_iff, Option.pure_def,
    Option.some.injEq] at hhold
  obtain ⟨a, ha, rfl⟩ := hhold
  obtain ⟨x, hx, -⟩ := hs.exists_element (Ledger.held?_eq_some_iff.mp ha).1
  obtain ⟨s', hok, hs', hlocks, -⟩ := hs.lend hx
  exact ⟨s', hok, hs', hlocks⟩

theorem Agrees.lendIf (hs : s.Agrees l) (hx : s.heap.get? e = some x) (wanted : Bool) :
    ∃ s', s.holdIf wanted e = .ok s' ∧ s'.Agrees (l.lendIf wanted e) ∧ s'.locks = s.locks := by
  cases wanted with
  | false => exact ⟨s, rfl, hs, rfl⟩
  | true =>
    obtain ⟨s', hok, hs', hlocks, -⟩ := hs.lend hx
    exact ⟨s', hok, hs', hlocks⟩

/-- An element that is in no table is destroyed when the last reference to it is put. -/
theorem Agrees.free (hs : s.Agrees l) (hx : s.heap.get? e = some x) (hhashed : x.isHashed = false) :
    Store.Agrees { s with heap := s.heap.free e } { l with accounts := l.accounts.set e none } := by
  have hget : ∀ f, (s.heap.free e).get? f = if f = e then none else s.heap.get? f := by
    intro f
    by_cases hf : f = e
    · subst hf
      simp [Heap.get?_free_self]
    · simp [hf, Heap.get?_free_of_ne (Ne.symm hf)]
  have hne : ∀ t r, l.roster? t = some r → ∀ f hash, (f, hash) ∈ r.entries → f ≠ e := by
    rintro t r hr f hash hf rfl
    obtain ⟨y, hy, howner, -⟩ := hs.listed t r hr f hash hf
    rw [hx, Option.some.injEq] at hy
    subst hy
    rw [Element.isHashed_iff.mpr ⟨t, howner⟩] at hhashed
    cases hhashed
  refine ⟨?_, hs.tables, ?_, ?_, ?_, ?_, hs.nodup⟩
  · simpa [Heap.free, Heap.size] using hs.elements
  · intro f
    rw [hget, Ledger.account?_close]
    split
    · exact .none
    · exact hs.element f
  · intro t
    refine rel_of_rel (fun table r _ hr htable => ?_) (hs.table t)
    refine htable.congr fun i _ entry hentry => ?_
    have hmem := (Roster.mem_bucket_iff.mp hentry).1
    simp only [Heap.links, hget, if_neg (hne t r hr _ _ hmem)]
  · intro t r hr f hash hf
    obtain ⟨y, hy, hy'⟩ := hs.listed t r hr f hash hf
    exact ⟨y, by rw [hget, if_neg (hne t r hr f hash hf), hy], hy'⟩
  · intro f y t hy howner
    rw [hget] at hy
    split at hy
    · cases hy
    · exact hs.owned f y t hy howner

/-- A reference is put in the ledger and in the store, and both agree on whether it was the last. -/
theorem Agrees.put (hs : s.Agrees l) (hidle : s.locks = []) {destroyed : Option (Account V)}
    {l' : Ledger V K} (hput : l.put e = some (destroyed, l')) :
    ∃ gone s', s.put e = .ok (gone, s') ∧ Option.Rel Element.Agrees gone destroyed ∧
      s'.Agrees l' ∧ s'.locks = [] := by
  simp only [Ledger.put, Option.bind_eq_bind, Option.bind_eq_some_iff, Option.pure_def] at hput
  obtain ⟨a, ha, hput⟩ := hput
  obtain ⟨ha, hpos⟩ := Ledger.held?_eq_some_iff.mp ha
  obtain ⟨x, hx, hxa⟩ := hs.exists_element ha
  have hcount := hxa.count
  have hlinked := hs.isLinked_eq hx
  by_cases hlast : a.references = 1 ∧ l.isLinked e = false
  · -- nobody else refers to the element, and no table either
    rw [if_pos hlast, Option.some.injEq, Prod.mk.injEq] at hput
    obtain ⟨rfl, rfl⟩ := hput
    have hhashed : x.isHashed = false := hlinked.symm.trans hlast.2
    have hone : x.count = 1 := by simpa [hlast.1, hhashed] using hcount
    have hnobody : x.owner = .nobody := by
      have hunclaimed := hxa.unclaimed
      cases howner : x.owner <;> simp_all [Element.isHashed]
    refine ⟨some x, { s with heap := s.heap.free e }, ?_, .some hxa, hs.free hx hhashed, hidle⟩
    simp only [Store.put, Heap.read_eq hx, Fault.ok_bind, hone, hnobody, hidle, ne_eq,
      not_true_eq_false, if_false, Fault.pure_eq_ok]
  · rw [if_neg hlast, Option.some.injEq, Prod.mk.injEq] at hput
    obtain ⟨rfl, rfl⟩ := hput
    obtain ⟨n, hn⟩ : ∃ n, x.count = n + 2 := by
      refine Nat.exists_eq_add_of_le' ?_
      rw [hcount]
      split
      · omega
      · have hhashed : x.isHashed = false := by simp_all
        have hne : a.references ≠ 1 := fun heq => hlast ⟨heq, hlinked.trans hhashed⟩
        omega
    refine ⟨none, _, ?_, .none, hs.write (y := { x with count := n + 1 }) hx ha rfl rfl
      (fun _ => rfl) ⟨hxa.value, hxa.release, ?_, hxa.unclaimed, hxa.unlinked⟩, hidle⟩
    · simp only [Store.put, Heap.read_eq hx, Fault.ok_bind, hn, Fault.pure_eq_ok]
    · change n + 1 = a.references - 1 + if x.isHashed then 1 else 0
      omega

/-! ## Tables -/

/-- The same places are free in a store and in a ledger. -/
theorem Agrees.findIdx?_isNone (hs : s.Agrees l) :
    s.tables.findIdx? Option.isNone = l.rosters.findIdx? Option.isNone := by
  have hsame : s.tables.toList.map Option.isNone = l.rosters.map Option.isNone := by
    refine List.ext_getElem (by simp [hs.tables]) fun t ht ht' => ?_
    simp only [List.length_map, Array.length_toList] at ht ht'
    have hrel := hs.table t
    simp only [Store.table?, Ledger.roster?, Array.getElem?_eq_getElem ht,
      List.getElem?_eq_getElem ht', Option.join_some] at hrel
    simp only [List.getElem_map, Array.getElem_toList]
    generalize s.tables[t] = table at hrel
    generalize l.rosters[t] = r at hrel
    cases hrel <;> rfl
  have hfind := congrArg (List.findIdx? id) hsame
  rw [List.findIdx?_map, List.findIdx?_map, Function.id_comp, Function.id_comp,
    ← List.findIdx?_toArray] at hfind
  exact hfind

/-- A table that came or went while the elements stayed as they were. -/
theorem Agrees.replaceTable (hs : s.Agrees l) (t : TableId) (table : Option (Table V K))
    (r : Option (Roster V K)) {s' : Store V K} {l' : Ledger V K} (hheap : s'.heap = s.heap)
    (haccounts : l'.accounts = l.accounts) (htables : s'.tables.size = l'.rosters.length)
    (htable : ∀ u, s'.table? u = if u = t then table else s.table? u)
    (hroster : ∀ u, l'.roster? u = if u = t then r else l.roster? u)
    (hrel : Option.Rel (Table.Agrees s.heap) table r) (hempty : ∀ r', r = some r' → r'.entries = [])
    (hbefore : ∀ r', l.roster? t = some r' → r'.entries = []) : s'.Agrees l' := by
  have haccount : ∀ e, l'.account? e = l.account? e := fun e => by
    simp only [Ledger.account?, haccounts]
  constructor
  · rw [hheap, haccounts, hs.elements]
  · exact htables
  · intro e
    rw [hheap, haccount]
    exact hs.element e
  · intro u
    rw [hheap, htable, hroster]
    split
    · exact hrel
    · exact hs.table u
  · intro u r' hr e hash he
    rw [hroster] at hr
    rw [hheap]
    split at hr
    · simp [hempty r' hr] at he
    · exact hs.listed u r' hr e hash he
  · intro e x u hx howner
    rw [hheap] at hx
    obtain ⟨r', hr, he⟩ := hs.owned e x u hx howner
    refine ⟨r', ?_, he⟩
    have hne : u ≠ t := by
      rintro rfl
      simp [Roster.elements, hbefore r' hr] at he
    rw [hroster, if_neg hne, hr]
  · intro u r' hr
    rw [hroster] at hr
    split at hr
    · simp [Roster.elements, hempty r' hr]
    · exact hs.nodup u r' hr

theorem Table.agrees_new (h : Heap V) (strategy : Strategy V K) (capacity : Capacity) :
    (Table.new strategy capacity).Agrees h ⟨strategy, capacity, []⟩ := by
  refine ⟨rfl, rfl, by simp [Table.new], rfl, fun i hi => ⟨.empty, ?_, ?_⟩⟩
  · simp only [Table.new, Array.getElem?_replicate]
    exact if_pos hi
  · exact Chain.represents_empty h

/-- A new table and its roster take the same place, and store and ledger agree again. -/
theorem Agrees.createTable (hs : s.Agrees l) (strategy : Strategy V K) (capacity : Capacity) :
    (s.createTable strategy capacity).1 = (l.createTable strategy capacity).1 ∧
      (s.createTable strategy capacity).2.Agrees (l.createTable strategy capacity).2 ∧
      (s.createTable strategy capacity).2.locks = s.locks := by
  have hnew := Table.agrees_new s.heap strategy capacity
  have hfind := hs.findIdx?_isNone
  obtain ⟨hnone, hroster⟩ := l.roster?_createTable strategy capacity
  have hbefore : ∀ r', l.roster? (l.createTable strategy capacity).1 = some r' →
      r'.entries = [] := by
    intro r' hr
    rw [hnone] at hr
    cases hr
  unfold Ledger.createTable at hroster hbefore ⊢
  unfold Store.createTable
  dsimp only [Store.note]
  rw [hfind]
  cases hfree : l.rosters.findIdx? Option.isNone with
  | some t =>
    obtain ⟨ht, -⟩ := List.findIdx?_eq_some_iff_getElem.mp hfree
    simp only [hfree] at hroster hbefore
    refine ⟨rfl, hs.replaceTable t (some (.new strategy capacity))
      (some ⟨strategy, capacity, []⟩) rfl rfl ?_ ?_ hroster (.some hnew) (by simp) hbefore, rfl⟩
    · simp [hs.tables]
    · intro u
      simp only [Store.table?, Array.getElem?_setIfInBounds]
      by_cases hu : u = t
      · subst hu
        simp [hs.tables, ht]
      · simp [hu, Ne.symm hu]
  | none =>
    simp only [hfree] at hroster hbefore
    refine ⟨hs.tables, hs.replaceTable l.rosters.length (some (.new strategy capacity))
      (some ⟨strategy, capacity, []⟩) rfl rfl ?_ ?_ hroster (.some hnew) (by simp) hbefore, rfl⟩
    · simp [hs.tables]
    · intro u
      simp only [Store.table?, Array.getElem?_push, hs.tables]
      split <;> rfl

/-- When a table without entries is forgotten in both, store and ledger agree again. -/
theorem Agrees.freeTable (hs : s.Agrees l) {l' : Ledger V K} (hfree : l.freeTable t = some l') :
    (s.freeTable t).Agrees l' := by
  simp only [Ledger.freeTable, Option.bind_eq_bind, Option.bind_eq_some_iff, Option.pure_def]
    at hfree
  obtain ⟨r, hr, hfree⟩ := hfree
  by_cases hempty : r.entries = []
  · simp only [hempty, ne_eq, not_true_eq_false, if_false, Option.some.injEq] at hfree
    subst hfree
    refine hs.replaceTable t none none rfl rfl ?_ ?_ (l.roster?_freeTable t) .none (by simp) ?_
    · simp [Store.freeTable, hs.tables]
    · intro u
      simp only [Store.freeTable, Store.table?, Array.getElem?_setIfInBounds]
      by_cases hu : u = t
      · subst hu
        by_cases hlt : u < s.tables.size <;> simp [hlt]
      · simp [hu, Ne.symm hu]
    · intro r' hr'
      rw [hr, Option.some.injEq] at hr'
      exact hr' ▸ hempty
  · simp [hempty] at hfree

end Store

end HashIndex
