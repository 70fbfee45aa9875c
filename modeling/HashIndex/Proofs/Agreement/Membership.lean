import HashIndex.Proofs.Agreement
import Mathlib.Data.List.Find

/-!
# Membership agrees with a ledger

Linking an element, finding one by a key and taking one out do to a store what they do to the
ledger it agrees with. One chain of one table changes, and the words of one element.

## Main statements

* `Store.Agrees.hash`, `Store.Agrees.lookup`, `Store.Agrees.unhash`: the operations of a table.
* `Store.Agrees.relink`: an element that came to a bucket, or left it.
-/

namespace HashIndex

variable {V K : Type}

namespace Roster

variable {r r' : Roster V K} {e f : ElementId} {i j : Nat} {hash hash' : UInt32}

theorem hash_unique (hnodup : r.elements.Nodup) (he : (e, hash) ∈ r.entries)
    (he' : (e, hash') ∈ r.entries) : hash = hash' := by
  have heq := List.inj_on_of_nodup_map hnodup he he' rfl
  exact (Prod.mk.inj heq).2

theorem mem_entries_of_remove_eq (hremove : r'.remove e = r.remove e) (hne : f ≠ e) :
    (f, hash) ∈ r'.entries ↔ (f, hash) ∈ r.entries := by
  have hmem : (f, hash) ∈ (r'.remove e).entries ↔ _ := mem_entries_remove
  rw [hremove, mem_entries_remove] at hmem
  simpa [hne] using hmem.symm

theorem strategy_of_remove_eq (hremove : r'.remove e = r.remove e) : r'.strategy = r.strategy := by
  have hstrategy := congrArg strategy hremove
  exact hstrategy

theorem capacity_of_remove_eq (hremove : r'.remove e = r.remove e) : r'.capacity = r.capacity := by
  have hcapacity := congrArg capacity hremove
  exact hcapacity

theorem bucket_remove_of_ne (hslot : ∀ hash, (e, hash) ∈ r.entries → r.slot hash = i)
    (hj : j ≠ i) : (r.remove e).bucket j = r.bucket j := by
  rw [bucket_remove, List.filter_eq_self]
  rintro ⟨f, hash⟩ hf
  obtain ⟨hf, hjf⟩ := mem_bucket_iff.mp hf
  simp only [decide_eq_true_eq]
  rintro rfl
  exact hj (hjf.symm.trans (hslot hash hf))

/-- Rosters that differ in one element fall into the same buckets, except for one. -/
theorem bucket_of_remove_eq (hremove : r'.remove e = r.remove e)
    (hslot : ∀ hash, (e, hash) ∈ r.entries ∨ (e, hash) ∈ r'.entries → r.slot hash = i)
    (hj : j ≠ i) : r'.bucket j = r.bucket j := by
  have hslot' : ∀ hash, r'.slot hash = r.slot hash := fun hash => by
    simp only [slot, capacity_of_remove_eq hremove]
  rw [← bucket_remove_of_ne (fun hash h => hslot hash (.inl h)) hj, ← hremove,
    bucket_remove_of_ne (fun hash h => (hslot' hash).trans (hslot hash (.inr h))) hj]

theorem nodup_bucket (hnodup : r.elements.Nodup) (i : Nat) : ((r.bucket i).map Prod.fst).Nodup :=
  hnodup.sublist (List.Sublist.map _ List.filter_sublist)

theorem map_bucket_remove (hnodup : r.elements.Nodup) (e : ElementId) (i : Nat) :
    ((r.remove e).bucket i).map Prod.fst = ((r.bucket i).map Prod.fst).erase e := by
  rw [bucket_remove, (nodup_bucket hnodup i).erase_eq_filter, List.filter_map]
  refine congrArg _ (List.filter_congr ?_)
  rintro ⟨f, hash⟩ -
  by_cases hf : f = e <;> simp [hf]

theorem length_entries_remove (hnodup : r.elements.Nodup) (he : e ∈ r.elements) :
    (r.remove e).entries.length + 1 = r.entries.length := by
  have herase : (r.remove e).elements = r.elements.erase e := by
    rw [elements_remove, hnodup.erase_eq_filter]
    refine List.filter_congr fun f _ => ?_
    by_cases hf : f = e <;> simp [hf]
  have hlength := congrArg List.length herase
  rw [List.length_erase_of_mem he] at hlength
  have hpos := List.length_pos_of_mem he
  simp only [elements, List.length_map] at hlength hpos
  omega

theorem bucket_insert (r : Roster V K) (e : ElementId) (key : K) :
    (r.insert e key).bucket (r.slot (r.strategy.hash key)) =
      (e, r.strategy.hash key) :: r.bucket (r.slot (r.strategy.hash key)) := by
  simp [bucket, insert, slot]

end Roster

theorem Element.Agrees.of_bare {x z : Element V} {a : Account V} (hx : x.Agrees a)
    (hbare : z.bare = x.bare)
    (hlinks : x.isHashed = false → (z.prev, z.next) = (x.prev, x.next)) : z.Agrees a := by
  obtain ⟨hvalue, howner, -, hcount, hrelease⟩ := bare_eq_iff.mp hbare
  have hhashed : z.isHashed = x.isHashed := by simp only [isHashed, howner]
  refine ⟨hvalue.trans hx.value, hrelease.trans hx.release, ?_, howner ▸ hx.unclaimed, fun h => ?_⟩
  · rw [hcount, hhashed]
    exact hx.count
  · rw [hhashed] at h
    obtain ⟨hprev, hnext⟩ := Prod.mk.inj (hlinks h)
    rw [hprev, hnext]
    exact hx.unlinked h

theorem Table.Agrees.slot_eq {h : Heap V} {table : Table V K} {r : Roster V K}
    (ht : table.Agrees h r) (hash : UInt32) : table.slot hash = r.slot hash := by
  simp only [Table.slot, ht.capacity, Roster.slot]

/-- A table agrees with another roster if the bucket of one element does. -/
theorem Table.Agrees.relink {h h' : Heap V} {table table' : Table V K} {r r' : Roster V K}
    {e : ElementId} (i : Nat) (c' : Chain) (ht : table.Agrees h r) (hnodup : r.elements.Nodup)
    (hremove : r'.remove e = r.remove e)
    (hslot : ∀ hash, (e, hash) ∈ r.entries ∨ (e, hash) ∈ r'.entries → r.slot hash = i)
    (hlinks : ∀ f ≠ e, f ∉ (r.bucket i).map Prod.fst → h'.links f = h.links f)
    (hc' : c'.Represents h' ((r'.bucket i).map Prod.fst))
    (hstrategy : table'.strategy = table.strategy) (hcapacity : table'.capacity = table.capacity)
    (hbuckets : table'.buckets = table.buckets.setIfInBounds i c')
    (hentries : table'.entries = r'.entries.length) : table'.Agrees h' r' := by
  have hcap := Roster.capacity_of_remove_eq hremove
  refine ⟨hstrategy.trans (ht.strategy.trans (Roster.strategy_of_remove_eq hremove).symm),
    hcapacity.trans (ht.capacity.trans hcap.symm), ?_, hentries, fun j hj => ?_⟩
  · rw [hbuckets, Array.size_setIfInBounds, ht.size, hcap]
  · rw [hcap] at hj
    rw [hbuckets, Array.getElem?_setIfInBounds]
    by_cases hij : i = j
    · subst hij
      exact ⟨c', by simp [ht.size, hj], hc'⟩
    · obtain ⟨c, hc, hrep⟩ := ht.chain j hj
      rw [if_neg hij, Roster.bucket_of_remove_eq hremove hslot (Ne.symm hij)]
      refine ⟨c, hc, hrep.congr fun f hf => ?_⟩
      obtain ⟨⟨g, hash⟩, hg, rfl⟩ := List.mem_map.mp hf
      obtain ⟨hg, hjg⟩ := Roster.mem_bucket_iff.mp hg
      refine hlinks g ?_ ?_
      · rintro rfl
        exact hij ((hslot hash (.inl hg)).symm.trans hjg)
      · intro hg'
        obtain ⟨⟨g', hash'⟩, hmem, heq⟩ := List.mem_map.mp hg'
        obtain rfl : g' = g := heq
        obtain ⟨hmem, hig⟩ := Roster.mem_bucket_iff.mp hmem
        exact hij (hig.symm.trans (Roster.hash_unique hnodup hmem hg ▸ hjg))

namespace Store

variable {s s' : Store V K} {l l' : Ledger V K} {e f : ElementId} {t u : TableId}
  {x y : Element V} {a : Account V} {r : Roster V K} {table : Table V K}

/-- One element came to a bucket of a table or left it: its words are others, the links of the other
elements of the bucket may be others, and everything else is as it was. -/
structure Relinked (s s' : Store V K) (l : Ledger V K) (t : TableId) (e : ElementId) (i : Nat)
    (r r' : Roster V K) (y : Element V) : Prop where
  size : s'.heap.size = s.heap.size
  words : ∀ f ≠ e, (s'.heap.get? f).map Element.bare = (s.heap.get? f).map Element.bare
  links : ∀ f ≠ e, f ∉ (r.bucket i).map Prod.fst → s'.heap.links f = s.heap.links f
  get : s'.heap.get? e = some y
  remove : r'.remove e = r.remove e
  nodup : r'.elements.Nodup
  alone : ∀ u r, l.roster? u = some r → e ∈ r.elements → u = t
  listed : ∀ hash, (e, hash) ∈ r'.entries → y.owner = .table t ∧ y.hash = hash
  owned : ∀ u, y.owner = .table u → u = t ∧ e ∈ r'.elements

section Relinked

variable {i : Nat} {r₁ r' : Roster V K} {z : Element V} {hash : UInt32}

/-- An element that is in no chain of the table keeps its neighbours. -/
theorem Relinked.links_of_owner (h : s.Relinked s' l t e i r r' y) (hs : s.Agrees l)
    (hr : l.roster? t = some r) (hf : f ≠ e)
    (howner : ∀ x, s.heap.get? f = some x → x.owner ≠ .table t) :
    s'.heap.links f = s.heap.links f := by
  refine h.links f hf fun hmem => ?_
  obtain ⟨⟨g, hash⟩, hg, rfl⟩ := List.mem_map.mp hmem
  obtain ⟨x, hx, hxowner, -⟩ := hs.listed t r hr g hash (Roster.mem_bucket_iff.mp hg).1
  exact howner x hx hxowner

theorem Relinked.exists_before (h : s.Relinked s' l t e i r r' y) (hf : f ≠ e)
    (hz : s'.heap.get? f = some z) : ∃ x, s.heap.get? f = some x ∧ z.bare = x.bare := by
  have hbare := h.words f hf
  rw [hz, Option.map_some, eq_comm, Option.map_eq_some_iff] at hbare
  obtain ⟨x, hx, hbare⟩ := hbare
  exact ⟨x, hx, hbare.symm⟩

theorem Relinked.exists_after (h : s.Relinked s' l t e i r r' y) (hf : f ≠ e)
    (hx : s.heap.get? f = some x) : ∃ z, s'.heap.get? f = some z ∧ z.bare = x.bare := by
  have hbare := h.words f hf
  rw [hx, Option.map_some, Option.map_eq_some_iff] at hbare
  exact hbare

theorem Relinked.rel_element (h : s.Relinked s' l t e i r r' y) (hs : s.Agrees l)
    (hr : l.roster? t = some r) (hf : f ≠ e) :
    Option.Rel Element.Agrees (s'.heap.get? f) (l.account? f) := by
  cases hz : s'.heap.get? f with
  | none =>
    have hrel := hs.element f
    have hdead := h.words f hf
    rw [hz, Option.map_none, eq_comm, Option.map_eq_none_iff] at hdead
    rw [hdead] at hrel
    cases ha : l.account? f <;> simp_all
  | some z =>
    obtain ⟨x, hx, hbare⟩ := h.exists_before hf hz
    obtain ⟨a, ha, hxa⟩ := hs.exists_account hx
    rw [ha]
    refine .some (hxa.of_bare hbare fun hhashed => ?_)
    have hsame := h.links_of_owner hs hr hf fun x' hx' howner => by
      rw [hx, Option.some.injEq] at hx'
      subst hx'
      rw [Element.isHashed_iff.mpr ⟨t, howner⟩] at hhashed
      cases hhashed
    rw [Heap.links_eq hz, Heap.links_eq hx] at hsame
    exact Option.some.inj hsame

/-- The chains of another table are as they were. -/
theorem Relinked.rel_table (h : s.Relinked s' l t e i r r' y) (hs : s.Agrees l)
    (hr : l.roster? t = some r) (hu : u ≠ t) :
    Option.Rel (Table.Agrees s'.heap) (s.table? u) (l.roster? u) := by
  refine rel_of_rel (fun table r₁ _ hr₁ hagrees => ?_) (hs.table u)
  refine hagrees.congr fun j _ entry hentry => ?_
  have hentry := (Roster.mem_bucket_iff.mp hentry).1
  refine h.links_of_owner hs hr ?_ ?_
  · intro heq
    exact hu (h.alone u r₁ hr₁ (heq ▸ Roster.mem_elements_iff.mpr ⟨_, hentry⟩))
  · intro x hx howner
    obtain ⟨z, hz, hzowner, -⟩ := hs.listed u r₁ hr₁ _ _ hentry
    rw [hx, Option.some.injEq] at hz
    rw [hz, hzowner] at howner
    exact hu (by simpa using howner)

/-- What is listed afterwards has the owner and the hash that it is listed with. -/
theorem Relinked.exists_listed (h : s.Relinked s' l t e i r r' y) (hs : s.Agrees l)
    (hr : l.roster? t = some r) (hr₁ : (if u = t then some r' else l.roster? u) = some r₁)
    (hf : (f, hash) ∈ r₁.entries) :
    ∃ z, s'.heap.get? f = some z ∧ z.owner = .table u ∧ z.hash = hash := by
  by_cases hfe : f = e
  · subst f
    have hu : u = t := by
      by_contra hu
      rw [if_neg hu] at hr₁
      exact hu (h.alone u r₁ hr₁ (Roster.mem_elements_iff.mpr ⟨hash, hf⟩))
    subst u
    rw [if_pos rfl, Option.some.injEq] at hr₁
    subst hr₁
    exact ⟨y, h.get, h.listed hash hf⟩
  · -- another element is listed where it was
    have hold : ∃ r₂, l.roster? u = some r₂ ∧ (f, hash) ∈ r₂.entries := by
      split at hr₁
      · subst u
        obtain rfl := Option.some.inj hr₁
        exact ⟨r, hr, (Roster.mem_entries_of_remove_eq h.remove hfe).mp hf⟩
      · exact ⟨r₁, hr₁, hf⟩
    obtain ⟨r₂, hr₂, hf⟩ := hold
    obtain ⟨x, hx, hxowner, hxhash⟩ := hs.listed u r₂ hr₂ f hash hf
    obtain ⟨z, hz, hbare⟩ := h.exists_after hfe hx
    obtain ⟨-, hzowner, hzhash, -⟩ := Element.bare_eq_iff.mp hbare
    exact ⟨z, hz, hzowner.trans hxowner, hzhash.trans hxhash⟩

/-- Whoever has a table for his owner afterwards is listed there. -/
theorem Relinked.exists_roster (h : s.Relinked s' l t e i r r' y) (hs : s.Agrees l)
    (hr : l.roster? t = some r) (hz : s'.heap.get? f = some z) (howner : z.owner = .table u) :
    ∃ r₁, (if u = t then some r' else l.roster? u) = some r₁ ∧ f ∈ r₁.elements := by
  by_cases hfe : f = e
  · subst f
    rw [h.get, Option.some.injEq] at hz
    subst hz
    obtain ⟨rfl, he⟩ := h.owned u howner
    exact ⟨r', if_pos rfl, he⟩
  · obtain ⟨x, hx, hbare⟩ := h.exists_before hfe hz
    obtain ⟨-, hzowner, -⟩ := Element.bare_eq_iff.mp hbare
    obtain ⟨r₁, hr₁, hf⟩ := hs.owned f x u hx (hzowner.symm.trans howner)
    by_cases hu : u = t
    · subst u
      rw [hr, Option.some.injEq] at hr₁
      subst hr₁
      obtain ⟨hash, hf⟩ := Roster.mem_elements_iff.mp hf
      have hf := (Roster.mem_entries_of_remove_eq h.remove hfe).mpr hf
      exact ⟨r', if_pos rfl, Roster.mem_elements_iff.mpr ⟨hash, hf⟩⟩
    · exact ⟨r₁, by rw [if_neg hu, hr₁], hf⟩

end Relinked

/-- Store and ledger agree again when one element has come to a bucket or left it in both. -/
theorem Agrees.relink (hs : s.Agrees l) (hr : l.roster? t = some r) (ht : s.table? t = some table)
    (ha : l.account? e = some a) {toRoster : Roster V K → Roster V K}
    {toAccount : Account V → Account V} {toTable : Table V K → Table V K} {i : Nat}
    (h : s.Relinked s' l t e i r (toRoster r) y) (hya : y.Agrees (toAccount a))
    (htables : s'.tables = (s.modifyTable t toTable).tables)
    (htable' : (toTable table).Agrees s'.heap (toRoster r)) :
    s'.Agrees ((l.updateRoster t toRoster).updateAccount e toAccount) := by
  have hroster : ∀ u, ((l.updateRoster t toRoster).updateAccount e toAccount).roster? u =
      if u = t then some (toRoster r) else l.roster? u := by
    intro u
    rw [Ledger.roster?_updateAccount, Ledger.roster?_updateRoster, hr, Option.map_some]
  have haccount : ∀ f, ((l.updateRoster t toRoster).updateAccount e toAccount).account? f =
      if f = e then some (toAccount a) else l.account? f := by
    intro f
    rw [Ledger.account?_updateAccount, Ledger.account?_updateRoster, Ledger.account?_updateRoster,
      ha, Option.map_some]
  have htable : ∀ u, s'.table? u = if u = t then some (toTable table) else s.table? u := by
    intro u
    have hsame : s'.table? u = (s.modifyTable t toTable).table? u := by
      simp only [Store.table?, htables]
    rw [hsame, table?_modifyTable, ht, Option.map_some]
  constructor
  · simp [h.size, hs.elements, Ledger.updateRoster]
  · rw [htables, size_tables_modifyTable, hs.tables, Ledger.updateAccount,
      Ledger.length_rosters_updateRoster]
  · intro f
    rw [haccount]
    split
    · subst f
      rw [h.get]
      exact .some hya
    next hf => exact h.rel_element hs hr hf
  · intro u
    rw [htable, hroster]
    split
    · exact .some htable'
    next hu => exact h.rel_table hs hr hu
  · intro u r₁ hr₁ f hash hf
    exact h.exists_listed hs hr ((hroster u).symm.trans hr₁) hf
  · intro f z u hz howner
    rw [hroster]
    exact h.exists_roster hs hr hz howner
  · intro u r₁ hr₁
    rw [hroster] at hr₁
    split at hr₁
    · exact Option.some.inj hr₁ ▸ h.nodup
    · exact hs.nodup u r₁ hr₁

/-! ## Finding -/

/-- In the bucket of a key the first element that answers to it is the one that the ledger finds. -/
theorem Agrees.find?_eq (hs : s.Agrees l) (hr : l.roster? t = some r) (key : K) {c : Chain}
    {h : Heap V} (hc : c.Represents h ((r.bucket (r.slot (r.strategy.hash key))).map Prod.fst))
    (hsame : ∀ e ∈ r.elements, h.get? e = s.heap.get? e) :
    c.find? h (fun other =>
      other.hash == r.strategy.hash key && r.strategy.equal other.value key) =
      .ok (l.find? r key) := by
  rw [hc.find?, List.find?_map, Roster.bucket, List.find?_filter]
  unfold Ledger.find?
  congr 2
  refine List.find?_congr ?_
  rintro ⟨e, hash⟩ he
  obtain ⟨x, hx, -, rfl⟩ := hs.listed t r hr e hash he
  obtain ⟨a, ha, hxa⟩ := hs.exists_account hx
  have hh := hsame e (Roster.mem_elements_iff.mpr ⟨_, he⟩)
  by_cases hhash : x.hash = r.strategy.hash key <;>
    simp [hh, hx, ha, hxa.value, hhash]

/-- Looking up a key finds what the ledger finds, and takes a reference to it. -/
theorem Agrees.lookup (hs : s.Agrees l) (hidle : s.locks = []) {key : K}
    {result : Except Refusal ElementId} (hlookup : l.lookup t key = some (result, l')) :
    ∃ s', s.lookup t key = .ok (result, s') ∧ s'.Agrees l' ∧ s'.locks = [] := by
  simp only [Ledger.lookup, Option.bind_eq_bind, Option.bind_eq_some_iff, Option.pure_def]
    at hlookup
  obtain ⟨r, hr, hlookup⟩ := hlookup
  obtain ⟨table, ht, htable⟩ := hs.exists_table hr
  set hash := r.strategy.hash key with hhash
  obtain ⟨c, hc, hrep⟩ := htable.chain (r.slot hash) (r.slot_lt _)
  obtain ⟨s₁, hlock, hlocks, hheap, htables⟩ := exists_lock
    (s.note (.selected hash (table.buckets.size - 1) (table.index hash))) hidle
    ⟨t, r.slot hash, false⟩
  have hagrees : s₁.Agrees l := hs.congr hheap htables
  have ht₁ : s₁.table? t = some table := by rw [Store.table?, htables]; exact ht
  have hfind := hagrees.find?_eq hr key (h := s₁.heap) (hheap ▸ hrep) fun _ _ => rfl
  rw [← hhash] at hfind
  simp only [Store.lookup, strategy_eq ht, htable.strategy, Fault.ok_bind, select_eq ht, ← hhash,
    htable.slot_eq, hlock, chain_eq ht₁ hc, hfind]
  cases hfound : l.find? r key with
  | none =>
    simp only [hfound, Option.some.injEq, Prod.mk.injEq] at hlookup
    obtain ⟨rfl, rfl⟩ := hlookup
    exact ⟨_, rfl, hagrees.congr rfl rfl, by simp [Store.unlock, hlocks]⟩
  | some e =>
    simp only [hfound, Option.some.injEq, Prod.mk.injEq] at hlookup
    obtain ⟨rfl, rfl⟩ := hlookup
    obtain ⟨entry, hentry, rfl⟩ := Option.map_eq_some_iff.mp hfound
    obtain ⟨x, hx, -⟩ := hagrees.listed t r hr _ _ (List.mem_of_find?_eq_some hentry)
    obtain ⟨s', hok, hs', hlocks', -⟩ := hagrees.lend hx
    refine ⟨s'.unlock ⟨t, r.slot hash, false⟩, ?_, hs'.congr rfl rfl, ?_⟩
    · simp only [hok, Fault.ok_bind, Fault.pure_eq_ok]
    · simp [Store.unlock, hlocks', hlocks]

/-! ## Taking out -/

/-- Once an element is out of its chain and abandoned, store and ledger agree again. -/
theorem Agrees.unlinked (hs : s.Agrees l) (hr : l.roster? t = some r) {hash : UInt32}
    (he : (e, hash) ∈ r.entries) (ht : s.table? t = some table) {c : Chain} {h : Heap V}
    (hc : c.Represents h (((r.bucket (r.slot hash)).map Prod.fst).erase e))
    (hwords : s.heap.SameWords h) (hlinks : h.links e = some (none, none))
    (hother : ∀ f, f ∉ (r.bucket (r.slot hash)).map Prod.fst → h.links f = s.heap.links f)
    (hy : h.get? e = some y) (hheap : s'.heap = h.write e y.abandon)
    (htables : s'.tables = ((s.setChain t (r.slot hash) c).modifyTable t fun table =>
      { table with entries := table.entries - 1 }).tables) : s'.Agrees (l.detach t e) := by
  have hmem := Roster.mem_elements_iff.mpr ⟨hash, he⟩
  have hnodup := hs.nodup t r hr
  obtain ⟨x, hx, howner, -⟩ := hs.listed t r hr e hash he
  obtain ⟨a, ha, hxa⟩ := hs.exists_account hx
  obtain ⟨table', ht', htable⟩ := hs.exists_table hr
  obtain rfl : table = table' := Option.some.inj (ht.symm.trans ht')
  have hbare := hwords.bare e
  rw [hy, hx, Option.map_some, Option.map_some, Option.some.injEq] at hbare
  obtain ⟨hvalue, -, -, hcount, hrelease⟩ := Element.bare_eq_iff.mp hbare
  have hnone : y.prev = none ∧ y.next = none := by
    rw [Heap.links_eq hy] at hlinks
    exact Prod.mk.inj (Option.some.inj hlinks)
  have hlinks' := Heap.links_write_same hy (y := y.abandon) rfl
  have htable' : ({ table.setChain (r.slot hash) c with entries := table.entries - 1 } :
      Table V K).Agrees s'.heap (r.remove e) := by
    refine htable.relink (r.slot hash) c hnodup (Roster.remove_remove r e) ?_ ?_ ?_ rfl rfl rfl ?_
    · rintro hash' (he' | he')
      · rw [Roster.hash_unique hnodup he' he]
      · simp [Roster.mem_entries_remove] at he'
    · intro f _ hf
      rw [hheap, hlinks', hother f hf]
    · rw [Roster.map_bucket_remove hnodup, hheap]
      exact hc.congr fun f _ => hlinks' f
    · have hlength := Roster.length_entries_remove hnodup hmem
      have hentries := htable.entries
      change table.entries - 1 = _
      omega
  have hrelinked : s.Relinked s' l t e (r.slot hash) r (r.remove e) y.abandon := by
    refine ⟨?_, fun f hf => ?_, fun f _ hf => ?_, ?_, Roster.remove_remove r e, ?_,
      fun u r' hr' he' => ?_, fun hash' he' => ?_, fun u hu => ?_⟩
    · rw [hheap, Heap.size_write, hwords.size]
    · rw [hheap, Heap.get?_write hy, if_neg hf, hwords.bare]
    · rw [hheap, hlinks', hother f hf]
    · rw [hheap, Heap.get?_write hy, if_pos rfl]
    · rw [Roster.elements_remove]
      exact hnodup.filter _
    · exact Owner.table.inj (((hs.owner_eq_iff hx hr').mpr he').symm.trans howner)
    · simp [Roster.mem_entries_remove] at he'
    · simp [Element.abandon] at hu
  refine hs.relink hr ht ha hrelinked ?_
    (htables.trans (by rw [Store.setChain, modifyTable_modifyTable])) htable'
  refine ⟨hvalue.trans hxa.value, hrelease.trans hxa.release, ?_, by simp [Element.abandon],
    fun _ => hnone⟩
  have hhashed := Element.isHashed_iff.mpr ⟨t, howner⟩
  have hxcount := hxa.count
  rw [hhashed, if_pos rfl] at hxcount
  exact hcount.trans hxcount

theorem Agrees.entries_ne_zero (hs : s.Agrees l) (hr : l.roster? t = some r)
    (ht : s.table? t = some table) (he : e ∈ r.elements) : table.entries ≠ 0 := by
  obtain ⟨table', ht', htable⟩ := hs.exists_table hr
  rw [ht, Option.some.injEq] at ht'
  subst ht'
  have hpos := List.length_pos_of_mem he
  rw [Roster.elements, List.length_map] at hpos
  rw [htable.entries]
  omega

/-- Taking out an element of a chain, word by word. -/
theorem detach_eq {i : Nat} {c c' : Chain} {h' : Heap V} (ht : s.table? t = some table)
    (hc : table.buckets[i]? = some c) (hpos : table.entries ≠ 0)
    (hunlink : c.unlink e s.heap = .ok (c', h')) (hy : h'.get? e = some y) :
    s.detach t i e = .ok { (Store.setChain { s with heap := h' } t i c').modifyTable t fun table =>
      { table with entries := table.entries - 1 } with heap := h'.write e y.abandon } := by
  set s₁ : Store V K := { s with heap := h' } with hs₁
  have ht₁ : s₁.table? t = some table := ht
  have ht₂ := table?_setChain ht₁ i c'
  simp only [Store.detach, chain_eq ht hc, Fault.ok_bind, hunlink, ← hs₁, removeEntry_eq ht₂ hpos]
  exact updateElement_eq hy Element.abandon

theorem Agrees.detach (hs : s.Agrees l) (hr : l.roster? t = some r) {hash : UInt32}
    (he : (e, hash) ∈ r.entries) :
    ∃ s', s.detach t (r.slot hash) e = .ok s' ∧ s'.Agrees (l.detach t e) ∧ s'.locks = s.locks := by
  obtain ⟨table, ht, htable⟩ := hs.exists_table hr
  obtain ⟨c, hc, hrep⟩ := htable.chain (r.slot hash) (r.slot_lt hash)
  have hpos := hs.entries_ne_zero hr ht (Roster.mem_elements_iff.mpr ⟨hash, he⟩)
  have hmem : e ∈ (r.bucket (r.slot hash)).map Prod.fst :=
    List.mem_map_of_mem (f := Prod.fst) (Roster.mem_bucket_iff.mpr ⟨he, rfl⟩)
  obtain ⟨c', h', hunlink, hc', hwords, hlinks, hother⟩ := hrep.unlink hmem
  obtain ⟨y, hy, -⟩ := Heap.exists_of_links hlinks
  exact ⟨_, detach_eq ht hc hpos hunlink hy,
    hs.unlinked hr he ht hc' hwords hlinks hother hy rfl rfl, rfl⟩

/-- Taking an element out does what the ledger does, and is refused when the ledger refuses it. -/
theorem Agrees.unhash (hs : s.Agrees l) (hidle : s.locks = []) {result : Except Refusal Unit}
    (hunhash : l.unhash t e = some (result, l')) :
    ∃ s', s.unhash t e = .ok (result, s') ∧ s'.Agrees l' ∧ s'.locks = [] := by
  simp only [Ledger.unhash, Option.bind_eq_bind, Option.bind_eq_some_iff, Option.pure_def]
    at hunhash
  obtain ⟨r, hr, a, ha, hunhash⟩ := hunhash
  obtain ⟨table, ht, htable⟩ := hs.exists_table hr
  obtain ⟨x, hx, -⟩ := hs.exists_element (Ledger.held?_eq_some_iff.mp ha).1
  have howner := hs.owner_eq_iff hx hr
  by_cases he : e ∈ r.elements
  · rw [if_pos he, Option.some.injEq, Prod.mk.injEq] at hunhash
    obtain ⟨rfl, rfl⟩ := hunhash
    obtain ⟨hash, he⟩ := Roster.mem_elements_iff.mp he
    obtain ⟨z, hz, hzowner, hzhash⟩ := hs.listed t r hr e hash he
    obtain rfl : x = z := Option.some.inj (hx.symm.trans hz)
    obtain ⟨s₁, hlock, hlocks, hheap, htables⟩ := exists_lock
      (s.note (.selected hash (table.buckets.size - 1) (table.index hash))) hidle
      ⟨t, r.slot hash, true⟩
    have hagrees : s₁.Agrees l := hs.congr hheap htables
    have ht₁ : s₁.table? t = some table := by rw [Store.table?, htables]; exact ht
    have hx₁ : s₁.heap.get? e = some x := by rw [hheap]; exact hx
    obtain ⟨s', hdetach, hs', hlocks'⟩ := hagrees.detach hr he
    refine ⟨s'.unlock ⟨t, r.slot hash, true⟩, ?_, hs'.congr rfl rfl, ?_⟩
    · simp only [Store.unhash, Heap.read_eq hx, Fault.ok_bind, hzowner, ne_eq, not_true_eq_false,
        if_false, hzhash, select_eq ht, htable.slot_eq, hlock, Heap.read_eq hx₁, table_eq ht₁,
        hdetach, Fault.pure_eq_ok]
    · simp [Store.unlock, hlocks', hlocks]
  · rw [if_neg he, Option.some.injEq, Prod.mk.injEq] at hunhash
    obtain ⟨rfl, rfl⟩ := hunhash
    refine ⟨s, ?_, hs, hidle⟩
    simp only [Store.unhash, Heap.read_eq hx, Fault.ok_bind, ne_eq, howner, he, not_false_eq_true,
      if_true, Fault.pure_eq_ok]

/-! ## Linking -/

/-- Once an element is at the front of its chain and owned, store and ledger agree again. -/
theorem Agrees.linked (hs : s.Agrees l) (hr : l.roster? t = some r) (key : K)
    (hx : s.heap.get? e = some x) (ha : l.account? e = some a) (hhashed : x.isHashed = false)
    (ht : s.table? t = some table) {c : Chain} {h : Heap V} {z : Element V}
    (hz : z = { x with
      owner := .claimed, hash := r.strategy.hash key, release := r.strategy.release,
      count := x.count + 1 })
    (hc : c.Represents h (e :: (r.bucket (r.slot (r.strategy.hash key))).map Prod.fst))
    (hwords : (s.heap.write e z).SameWords h)
    (hother : ∀ f, f ∉ e :: (r.bucket (r.slot (r.strategy.hash key))).map Prod.fst →
      h.links f = (s.heap.write e z).links f)
    (hy : h.get? e = some y) (hheap : s'.heap = h.write e { y with owner := .table t })
    (htables : s'.tables = ((s.setChain t (r.slot (r.strategy.hash key)) c).modifyTable t
      fun table => { table with entries := table.entries + 1 }).tables) :
    s'.Agrees ((l.updateRoster t fun r => r.insert e key).updateAccount e
      fun a => { a with release := r.strategy.release }) := by
  set hash := r.strategy.hash key with hhash
  obtain ⟨a', ha', hxa⟩ := hs.exists_account hx
  obtain rfl : a = a' := Option.some.inj (ha.symm.trans ha')
  obtain ⟨table', ht', htable⟩ := hs.exists_table hr
  obtain rfl : table = table' := Option.some.inj (ht.symm.trans ht')
  have halone := hs.not_mem_elements hx hhashed
  have hfresh : e ∉ r.elements := halone t r hr
  have hnodup := hs.nodup t r hr
  have hentries : (r.insert e key).entries = (e, hash) :: r.entries := rfl
  have hnodup' : (r.insert e key).elements.Nodup := List.nodup_cons.mpr ⟨hfresh, hnodup⟩
  have hhash' : ∀ hash', (e, hash') ∈ (r.insert e key).entries → hash' = hash := by
    intro hash' he
    exact Roster.hash_unique hnodup' he (by simp [hentries])
  -- the words of the element are those of the claim, and the links of the chain
  have hz' : (s.heap.write e z).get? e = some z := by rw [Heap.get?_write hx, if_pos rfl]
  obtain ⟨y', hy', hbare⟩ := hwords.exists_get? hz'
  obtain rfl : y = y' := Option.some.inj (hy.symm.trans hy')
  obtain ⟨hvalue, -, hyhash, hcount, hrelease⟩ := Element.bare_eq_iff.mp hbare
  have hlinks' := Heap.links_write_same hy (y := { y with owner := .table t }) rfl
  have hlinks : ∀ f ≠ e, f ∉ (r.bucket (r.slot hash)).map Prod.fst →
      s'.heap.links f = s.heap.links f := by
    intro f hfe hf
    rw [hheap, hlinks', hother f (by simp [hfe, hf]), Heap.links_write hx, if_neg hfe]
  have htable' : ({ table.setChain (r.slot hash) c with entries := table.entries + 1 } :
      Table V K).Agrees s'.heap (r.insert e key) := by
    refine htable.relink (r.slot hash) c hnodup (Roster.remove_insert r e key) ?_ hlinks ?_
      rfl rfl rfl ?_
    · rintro hash' (he | he)
      · exact absurd (Roster.mem_elements_iff.mpr ⟨_, he⟩) hfresh
      · rw [hhash' hash' he]
    · rw [Roster.bucket_insert, hheap]
      exact hc.congr fun f _ => hlinks' f
    · rw [hentries, List.length_cons, htable.entries]
  have hrelinked : s.Relinked s' l t e (r.slot hash) r (r.insert e key)
      { y with owner := .table t } := by
    refine ⟨?_, fun f hf => ?_, hlinks, ?_, Roster.remove_insert r e key, hnodup',
      fun u r' hr' he => absurd he (halone u r' hr'), fun hash' he => ?_, fun u hu => ?_⟩
    · rw [hheap, Heap.size_write, hwords.size, Heap.size_write]
    · rw [hheap, Heap.get?_write hy, if_neg hf, hwords.bare, Heap.get?_write hx, if_neg hf]
    · rw [hheap, Heap.get?_write hy, if_pos rfl]
    · rw [hhash' hash' he]
      exact ⟨rfl, hyhash.trans (by rw [hz])⟩
    · exact ⟨(Owner.table.inj hu).symm, by simp [Roster.elements, hentries]⟩
  refine hs.relink hr ht ha hrelinked ?_
    (htables.trans (by rw [Store.setChain, modifyTable_modifyTable])) htable'
  subst hz
  refine ⟨hvalue.trans hxa.value, hrelease, ?_, by simp, fun h => ?_⟩
  · have hxcount := hxa.count
    rw [hhashed] at hxcount
    simp only [Element.isHashed]
    simpa [hcount] using hxcount
  · simp [Element.isHashed] at h

/-- A claimed element is linked step by step, and belongs to its table in the end. -/
theorem Agrees.link (hs : s.Agrees l) (hr : l.roster? t = some r) (key : K)
    (hx : s.heap.get? e = some x) (ha : l.account? e = some a) (hhashed : x.isHashed = false)
    {s₁ : Store V K} {claimed : Element V}
    (hclaimed : claimed = { x with owner := .claimed, hash := r.strategy.hash key })
    (hheap : s₁.heap = s.heap.write e claimed) (htables : s₁.tables = s.tables) :
    ∃ s', s₁.link t (r.slot (r.strategy.hash key)) e r.strategy.release = .ok s' ∧
      s'.Agrees ((l.updateRoster t fun r => r.insert e key).updateAccount e
        fun a => { a with release := r.strategy.release }) ∧ s'.locks = s₁.locks := by
  obtain ⟨table, ht, htable⟩ := hs.exists_table hr
  obtain ⟨a', -, hxa⟩ := hs.exists_account hx
  set i := r.slot (r.strategy.hash key)
  obtain ⟨c, hc, hrep⟩ := htable.chain i (r.slot_lt _)
  have ht₁ : s₁.table? t = some table := by rw [Store.table?, htables]; exact ht
  have hx₁ : s₁.heap.get? e = some claimed := by rw [hheap, Heap.get?_write hx, if_pos rfl]
  set s₂ : Store V K := { s₁ with
    heap := s₁.heap.write e { claimed with release := r.strategy.release } } with hs₂
  have hsetRelease : s₁.updateElementM e (Element.setRelease r.strategy.release) = .ok s₂ :=
    updateElementM_eq hx₁ (if_pos (by rw [hclaimed]))
  have hx₂ : s₂.heap.get? e = some { claimed with release := r.strategy.release } := by
    rw [hs₂, Heap.get?_write hx₁, if_pos rfl]
  set z : Element V := { x with
    owner := .claimed, hash := r.strategy.hash key, release := r.strategy.release,
    count := x.count + 1 } with hz
  set s₃ : Store V K := { s₁ with heap := s.heap.write e z } with hs₃
  have hhold : s₂.hold e = .ok s₃ := by
    rw [Store.hold, updateElement_eq hx₂, hs₂, hheap, Heap.write_write, Heap.write_write, hclaimed]
  have hx₃ : s₃.heap.get? e = some z := by rw [hs₃, Heap.get?_write hx, if_pos rfl]
  -- the chain takes the element, which has no neighbours and is in no chain
  have hrep₃ : c.Represents s₃.heap ((r.bucket i).map Prod.fst) :=
    hrep.congr fun f _ => Heap.links_write_same hx (y := z) rfl f
  obtain ⟨hprev, hnext⟩ := hxa.unlinked hhashed
  have hout : e ∉ (r.bucket i).map Prod.fst := fun he =>
    hs.not_mem_elements hx hhashed t r hr ((List.Sublist.map _ List.filter_sublist).subset he)
  obtain ⟨h, hpush, hc', hwords, hother⟩ := hrep₃.pushFront hx₃ hprev hnext hout
  obtain ⟨y, hy, hbare⟩ := hwords.exists_get? hx₃
  set s₄ : Store V K := { s₃ with heap := h } with hs₄
  have ht₄ : (s₄.setChain t i ⟨some e, c.length + 1⟩).table? t = _ := table?_setChain ht₁ i _
  set s₅ := (s₄.setChain t i ⟨some e, c.length + 1⟩).modifyTable t fun table =>
    { table with entries := table.entries + 1 } with hs₅
  have hy₅ : s₅.heap.get? e = some y := hy
  have hpublish : Element.publish t y = .ok { y with owner := .table t } :=
    if_pos (Element.bare_eq_iff.mp hbare).2.1
  refine ⟨{ s₅ with heap := s₅.heap.write e { y with owner := .table t } }, ?_, ?_, rfl⟩
  · have hc₃ : s₃.chain t i = .ok c := chain_eq ht₁ hc
    simp only [Store.link, hsetRelease, hhold, hc₃, hpush, ← hs₄, addEntry_eq ht₄, Fault.ok_bind,
      ← hs₅, updateElementM_eq hy₅ hpublish]
  · refine hs.linked hr key hx ha hhashed ht rfl hc' hwords hother hy rfl ?_
    simp only [hs₅, hs₄, hs₃, Store.setChain, Store.modifyTable, htables]
    rfl

/-- Linking an element does what the ledger does, and is refused when the ledger refuses it. -/
theorem Agrees.hash (hs : s.Agrees l) (hidle : s.locks = []) {key : K}
    {result : Except Refusal Unit} (hhash : l.hash t e key = some (result, l')) :
    ∃ s', s.hash t e key = .ok (result, s') ∧ s'.Agrees l' ∧ s'.locks = [] := by
  simp only [Ledger.hash, Option.bind_eq_bind, Option.bind_eq_some_iff, Option.pure_def] at hhash
  obtain ⟨r, hr, a, ha, hhash⟩ := hhash
  obtain ⟨ha, -⟩ := Ledger.held?_eq_some_iff.mp ha
  obtain ⟨table, ht, htable⟩ := hs.exists_table hr
  obtain ⟨x, hx, hxa⟩ := hs.exists_element ha
  have hlinked := hs.isLinked_eq hx
  rcases hequal : r.strategy.equal x.value key with _ | _
  · obtain ⟨rfl, rfl⟩ := by simpa [hxa.value ▸ hequal] using hhash
    refine ⟨s, ?_, hs, hidle⟩
    simp only [Store.hash, strategy_eq ht, Fault.ok_bind, Heap.read_eq hx, htable.strategy,
      hequal, Bool.not_false, if_true, Fault.pure_eq_ok]
  have hequal' : r.strategy.equal a.value key = true := hxa.value ▸ hequal
  rcases hhashed : x.isHashed with _ | _
  swap
  · obtain ⟨rfl, rfl⟩ := by simpa [hequal', hlinked, hhashed] using hhash
    obtain ⟨u, howner⟩ := Element.isHashed_iff.mp hhashed
    refine ⟨s, ?_, hs, hidle⟩
    simp only [Store.hash, strategy_eq ht, Fault.ok_bind, Heap.read_eq hx, htable.strategy,
      hequal, Element.claim?, howner, Bool.not_true, Bool.false_eq_true, if_false,
      Fault.pure_eq_ok]
  have hnobody : x.owner = .nobody := by
    have hunclaimed := hxa.unclaimed
    cases howner : x.owner <;> simp_all [Element.isHashed]
  set i := r.slot (r.strategy.hash key) with hi
  obtain ⟨c, hc, hrep⟩ := htable.chain i (r.slot_lt _)
  -- the element is claimed for the key, and the bucket of the key is locked
  set claimed : Element V := { x with owner := .claimed, hash := r.strategy.hash key } with hclaimed
  set s₁ : Store V K := { s with heap := s.heap.write e claimed } with hs₁
  have hclaim : Store.updateElementM
      { s with heap := s.heap.write e { x with owner := .claimed } } e
      (Element.setHash (r.strategy.hash key)) = .ok s₁ := by
    rw [updateElementM_eq (by rw [Heap.get?_write hx, if_pos rfl]) (if_pos rfl), Heap.write_write]
  obtain ⟨s₂, hlock, hlocks, hheap, htables⟩ := exists_lock
    (s₁.note (.selected (r.strategy.hash key) (table.buckets.size - 1)
      (table.index (r.strategy.hash key)))) hidle ⟨t, i, true⟩
  have ht₁ : s₁.table? t = some table := ht
  have ht₂ : s₂.table? t = some table := by rw [Store.table?, htables]; exact ht
  have hget : ∀ f, s₂.heap.get? f = if f = e then some claimed else s.heap.get? f := fun f => by
    rw [hheap]
    exact Heap.get?_write hx claimed f
  have hrep₂ : c.Represents s₂.heap ((r.bucket i).map Prod.fst) :=
    hrep.congr fun f _ => by
      rw [hheap]
      exact Heap.links_write_same hx (y := claimed) rfl f
  have hfind := hs.find?_eq hr key hrep₂ fun f hf => by
    have hne : f ≠ e := by
      rintro rfl
      exact hs.not_mem_elements hx hhashed t r hr hf
    rw [hget, if_neg hne]
  simp only [Store.hash, strategy_eq ht, Fault.ok_bind, Heap.read_eq hx, htable.strategy,
    hequal, Bool.not_true, Bool.false_eq_true, if_false, Element.claim?, hnobody, hclaim,
    select_eq ht₁, htable.slot_eq, ← hi, hlock, chain_eq ht₂ hc, hfind]
  rcases hfound : l.find? r key with _ | f
  · obtain ⟨rfl, rfl⟩ := by simpa [hequal', hlinked, hhashed, hfound] using hhash
    obtain ⟨s', hlink, hs', hlocks'⟩ := hs.link hr key hx ha hhashed hclaimed hheap htables
    rw [← hi] at hlink
    refine ⟨s'.unlock ⟨t, i, true⟩, ?_, hs'.congr rfl rfl, ?_⟩
    · simp only [Option.isSome_none, Bool.false_eq_true, if_false, hlink, Fault.ok_bind,
        Fault.pure_eq_ok]
    · simp [Store.unlock, hlocks', hlocks]
  · obtain ⟨rfl, rfl⟩ := by simpa [hequal', hlinked, hhashed, hfound] using hhash
    have hx₂ : s₂.heap.get? e = some claimed := by rw [hget, if_pos rfl]
    refine ⟨Store.unlock { s₂ with heap := s₂.heap.write e claimed.abandon } ⟨t, i, true⟩, ?_, ?_,
      by simp [Store.unlock, hlocks]⟩
    · simp only [Option.isSome_some, if_true, updateElement_eq hx₂, Fault.ok_bind,
        Fault.pure_eq_ok]
    · -- nothing has changed but the hash of an element that is in no table
      have hwrite := hs.write (y := claimed.abandon) (g := id) hx ha rfl
        (by simp [Element.abandon, hnobody]) (by simp [hhashed]) ?_
      · rw [Ledger.updateAccount_id] at hwrite
        refine hwrite.congr ?_ htables
        simp only [Store.unlock, hheap]
        exact Heap.write_write _ _ _ _
      · refine ⟨hxa.value, hxa.release, ?_, by simp [Element.abandon],
          fun _ => hxa.unlinked hhashed⟩
        have hcount := hxa.count
        rw [hhashed] at hcount
        exact hcount

end Store

end HashIndex
