import HashIndex.Proofs.Call.FlatList
import Mathlib.Data.List.Perm.Subperm

/-!
# Taking elements out of a bucket

A traversal and the drop of a table work on one bucket at a time. In one go they take elements out
of its chain and leave the references that the table had to whoever is to put them: the others stay
in their order, nothing is done to any other chain, and no element is destroyed.

## Main definitions

* `Store.members?`: the elements in the chain of a bucket.
* `Store.Detaches`: elements are taken out of a bucket, and some are held.
* `Store.Walks`: a bucket is visited.
* `Call.changes`, `Store.SameTable`: calls that concern a table, and a table that is left alone.
* `Store.Belongs`: no table but its own can do anything with an element.

## Main statements

* `Store.Agrees.walks`: what visiting a bucket does.
* `Store.Agrees.detaches_of_drain`: what draining a bucket does.
* `Ledger.roster?_of_callAll`: a table changes by calls that concern it only.
-/

namespace HashIndex

variable {V K : Type}

namespace Store

/-- The elements in the chain of a bucket, front first. -/
def members? (s : Store V K) (t : TableId) (i : Nat) : Option (List ElementId) :=
  match s.chain t i with
  | .ok c => (c.elements s.heap).toOption.map fun elements => elements.map Prod.fst
  | .error _ => none

/-- The elements `taken` leave the chain of a bucket, and the references of the table are not put
yet. References to the elements `held` are handed out. Nothing else changes. -/
structure Detaches (s : Store V K) (t : TableId) (i : Nat) (held taken : List ElementId)
    (s' : Store V K) : Prop where
  sublist : ∃ es, s.members? t i = some es ∧ taken.Sublist es ∧ es.Nodup
  chains : ∀ u j, s'.members? u j = (s.members? u j).map fun es =>
    if u = t ∧ j = i then es.filter fun e => e ∉ taken else es
  tables : ∀ u table, s.table? u = some table → ∃ table', s'.table? u = some table' ∧
    table'.strategy = table.strategy ∧ table'.capacity = table.capacity ∧
    table'.entries + (if u = t then taken.length else 0) = table.entries
  elements : ∀ e x, s.heap.get? e = some x → ∃ y, s'.heap.get? e = some y ∧ y.value = x.value ∧
    y.release = x.release ∧ y.count = x.count + held.count e ∧
    y.owner = if e ∈ taken then .nobody else x.owner

/-- The elements of a bucket are visited, each one once and in the order of the chain; as was
chosen, some of them are held, and some are taken out. -/
structure Walks (s : Store V K) (t : TableId) (i number : Nat) (choose : Nat → V → Choice)
    (visits : List (Visit V)) (s' : Store V K) : Prop where
  members : s.members? t i = some (visits.map Visit.element)
  words : ∀ v ∈ visits, ∃ x, s.heap.get? v.element = some x ∧ v.value = x.value ∧ v.hash = x.hash
  numbers : visits.map Visit.number = List.range' number visits.length
  choice : ∀ v ∈ visits, v.choice = choose v.number v.value
  detaches : s.Detaches t i (Ledger.heldBy visits) (Ledger.takenOut visits) s'

/-- A table has the same counter and the same elements in its chains. -/
structure SameTable (s s' : Store V K) (t : TableId) : Prop where
  table : ∀ table, s.table? t = some table → ∃ table', s'.table? t = some table' ∧
    table'.strategy = table.strategy ∧ table'.capacity = table.capacity ∧
    table'.entries = table.entries
  members : ∀ i, s'.members? t i = s.members? t i

/-- An element belongs to a table: no table can link it, and no other table can take it out. -/
structure Belongs (s : Store V K) (t : TableId) (e : ElementId) : Prop where
  owner : ∃ x, s.heap.get? e = some x ∧ x.owner = .table t ∧ x.isHashed = true
  hash : ∀ u table x key, s.table? u = some table → s.heap.get? e = some x →
    s.hash u e key =
      .ok (.error (if table.strategy.equal x.value key then .alreadyHashed else .keyMismatch), s)
  unhash : ∀ u, u ≠ t → s.unhash u e = .ok (.error .notHashed, s)

end Store

/-- Whether a call can change what is in a table. -/
def Call.changes (t : TableId) : Call V K → Bool
  | .freeTable u | .hash u _ _ | .unhash u _ | .walk u _ _ _ | .drain u _ => u = t
  | _ => false

namespace Roster

variable {r : Roster V K} {es : List ElementId} {e : ElementId} {i : Nat}

theorem mem_elements_without : e ∈ (r.without es).elements ↔ e ∈ r.elements ∧ e ∉ es := by
  simp [mem_elements_iff, without]

theorem bucket_without (r : Roster V K) (es : List ElementId) (i : Nat) :
    (r.without es).bucket i = (r.bucket i).filter fun entry => entry.1 ∉ es := by
  simp only [bucket, without, slot, List.filter_filter]
  exact List.filter_congr fun entry _ => Bool.and_comm _ _

theorem map_bucket_without (r : Roster V K) (es : List ElementId) (i : Nat) :
    ((r.without es).bucket i).map Prod.fst =
      ((r.bucket i).map Prod.fst).filter fun e => e ∉ es := by
  rw [bucket_without, List.filter_map]
  rfl

/-- A bucket that no element has left is as it was. -/
theorem bucket_without_of_disjoint (hdisjoint : List.Disjoint es ((r.bucket i).map Prod.fst)) :
    (r.without es).bucket i = r.bucket i := by
  rw [bucket_without, List.filter_eq_self]
  exact fun entry hentry => decide_eq_true fun hout => hdisjoint hout (List.mem_map_of_mem hentry)

/-- Different buckets have no elements in common. -/
theorem disjoint_bucket (hnodup : r.elements.Nodup) {j : Nat} (hne : i ≠ j) :
    List.Disjoint ((r.bucket i).map Prod.fst) ((r.bucket j).map Prod.fst) := by
  intro e hi hj
  obtain ⟨⟨f, hash⟩, hf, rfl⟩ := List.mem_map.mp hi
  obtain ⟨⟨g, hash'⟩, hg, heq⟩ := List.mem_map.mp hj
  obtain rfl : g = f := heq
  obtain ⟨he, rfl⟩ := mem_bucket_iff.mp hf
  obtain ⟨he', rfl⟩ := mem_bucket_iff.mp hg
  exact hne (by rw [hash_unique hnodup he he'])

theorem length_without (hnodup : r.elements.Nodup) (hes : es.Nodup) (hsub : es ⊆ r.elements) :
    (r.without es).entries.length + es.length = r.entries.length := by
  have htaken : (r.elements.filter fun e => e ∈ es).Perm es := by
    refine (List.perm_ext_iff_of_nodup (hnodup.filter _) hes).mpr fun e => ?_
    simpa using fun he => hsub he
  have hkept : (r.without es).entries.length = (r.elements.filter fun e => e ∉ es).length := by
    simp [without, elements, List.filter_map, Function.comp_def]
  have hsplit := List.length_eq_length_filter_add (l := r.elements) fun e => decide (e ∈ es)
  rw [htaken.length_eq] at hsplit
  have hlength : r.elements.length = r.entries.length := List.length_map _
  simp only [hkept, decide_not] at hsplit ⊢
  omega

end Roster

namespace Store

variable {s s' : Store V K} {l l' : Ledger V K} {t u : TableId} {i : Nat} {r : Roster V K}
  {held taken es : List ElementId} {e : ElementId}

theorem Agrees.members?_eq (hs : s.Agrees l) (t : TableId) (i : Nat) :
    s.members? t i = (l.roster? t).bind fun r =>
      if i < r.capacity.size then some ((r.bucket i).map Prod.fst) else none := by
  cases hr : l.roster? t with
  | none =>
    have hnone := hs.lists.gone t hr
    simp only [members?, Store.chain, Store.table, hnone, Fault.error_bind, Option.bind_none]
  | some r =>
    rw [Option.bind_some]
    by_cases hi : i < r.capacity.size
    · obtain ⟨c, elements, hc, helements, heq⟩ := hs.elements_eq hr hi
      simp only [members?, hc, helements, Except.toOption, Option.map_some, if_pos hi, ← heq]
      simp [Function.comp_def]
    · obtain ⟨table, ht, htable⟩ := hs.exists_table hr
      have hout : table.buckets[i]? = none := by
        simpa [htable.size] using hi
      simp only [members?, Store.chain, table_eq ht, Fault.ok_bind, Table.chain, hout, if_neg hi]

theorem Agrees.members?_eq_some_iff (hs : s.Agrees l) :
    s.members? t i = some es ↔
      ∃ r, l.roster? t = some r ∧ i < r.capacity.size ∧ es = (r.bucket i).map Prod.fst := by
  rw [hs.members?_eq, Option.bind_eq_some_iff]
  refine exists_congr fun r => and_congr_right fun _ => ?_
  by_cases hi : i < r.capacity.size <;> simp [hi, eq_comm]

theorem Agrees.owner_iff (hs : s.Agrees l) {x : Element V} (hx : s.heap.get? e = some x) :
    x.owner = .table t ↔ ∃ r, l.roster? t = some r ∧ e ∈ r.elements :=
  ⟨hs.owned e x t hx, fun ⟨_, hr, he⟩ => (hs.owner_eq_iff hx hr).mpr he⟩

/-- Elements that leave the lists belong to nobody afterwards, and the reference of the table is
still counted. -/
theorem Agrees.exists_detached (hs : s.Agrees l) (hs' : s'.Agrees l') {x : Element V}
    (hx : s.heap.get? e = some x) (hyields : l.Yields es l') (hperm : es.Perm (held ++ taken))
    (hnodup : taken.Nodup) (hin : e ∈ taken → ∃ t r, l.roster? t = some r ∧ e ∈ r.elements)
    (hlisted : ∀ u, (∃ r', l'.roster? u = some r' ∧ e ∈ r'.elements) ↔
      (∃ r, l.roster? u = some r ∧ e ∈ r.elements) ∧ e ∉ taken) :
    ∃ y, s'.heap.get? e = some y ∧ y.value = x.value ∧ y.release = x.release ∧
      y.count = x.count + held.count e ∧ y.owner = if e ∈ taken then .nobody else x.owner := by
  obtain ⟨a, ha, hxa⟩ := hs.exists_account hx
  have ha' : l'.account? e = some { a with references := a.references + es.count e } := by
    rw [hyields.account?_eq, ha, Option.map_some]
  obtain ⟨y, hy, hya⟩ := hs'.exists_element ha'
  have howner : ∀ u, y.owner = .table u ↔ x.owner = .table u ∧ e ∉ taken := by
    intro u
    rw [hs.owner_iff hx, hs'.owner_iff hy, hlisted u]
  have hcount := hperm.count_eq e
  rw [List.count_append] at hcount
  refine ⟨y, hy, hya.value.trans hxa.value.symm, hya.release.trans hxa.release.symm, ?_⟩
  rw [hya.count, hxa.count, hcount]
  have hunclaimed := hxa.unclaimed
  have hunclaimed' := hya.unclaimed
  by_cases he : e ∈ taken
  · obtain ⟨t, hlinked⟩ := hin he
    have hhashed : x.isHashed = true := Element.isHashed_iff.mpr ⟨t, (hs.owner_iff hx).mpr hlinked⟩
    have hnobody : y.owner = .nobody := by cases hy' : y.owner <;> simp_all
    have hone : taken.count e = 1 := List.count_eq_one_of_mem hnodup he
    have hhashed' : y.isHashed = false := by simp [Element.isHashed, hnobody]
    refine ⟨?_, by rw [if_pos he, hnobody]⟩
    simp only [hhashed, hhashed', if_true, Bool.false_eq_true, if_false]
    omega
  · have hsame : y.owner = x.owner := by
      cases hx' : x.owner with
      | claimed => exact absurd hx' hunclaimed
      | nobody => cases hy' : y.owner <;> simp_all
      | table u => exact (howner u).mpr ⟨hx', he⟩
    have hnone : taken.count e = 0 := List.count_eq_zero.mpr he
    have hhashed : y.isHashed = x.isHashed := by simp [Element.isHashed, hsame]
    refine ⟨?_, by rw [if_neg he, hsame]⟩
    simp only [hhashed, hnone]
    omega

/-- When elements leave one bucket of a ledger, their store does what it is meant to do. -/
theorem Agrees.detaches (hs : s.Agrees l) (hs' : s'.Agrees l') (hr : l.roster? t = some r)
    (hi : i < r.capacity.size) (htaken : taken.Sublist ((r.bucket i).map Prod.fst))
    (hyields : l.Yields es l') (hperm : es.Perm (held ++ taken))
    (hroster : ∀ u, l'.roster? u = if u = t then some (r.without taken) else l.roster? u) :
    s.Detaches t i held taken s' := by
  have hnodup := hs.nodup t r hr
  have hsublist : ((r.bucket i).map Prod.fst).Sublist r.elements := List.filter_sublist.map _
  have hdistinct : taken.Nodup := (hnodup.sublist hsublist).sublist htaken
  have hin : taken ⊆ r.elements := (htaken.trans hsublist).subset
  -- an element is listed where it was, unless it was taken out
  have hlisted : ∀ e u, (∃ r', l'.roster? u = some r' ∧ e ∈ r'.elements) ↔
      (∃ r', l.roster? u = some r' ∧ e ∈ r'.elements) ∧ e ∉ taken := by
    intro e u
    rw [hroster]
    split
    · subst u
      simp [hr, Roster.mem_elements_without]
    next hu =>
      refine ⟨fun ⟨r', hr', he⟩ => ⟨⟨r', hr', he⟩, fun hgone => hu ?_⟩, And.left⟩
      exact hs.lists.unique u t r' r e hr' hr he (hin hgone)
  refine ⟨⟨_, hs.members?_eq_some_iff.mpr ⟨r, hr, hi, rfl⟩, htaken, hnodup.sublist hsublist⟩,
    fun u j => ?_, fun u table ht => ?_, fun e x hx => hs.exists_detached hs' hx hyields hperm
      hdistinct (fun he => ⟨t, r, hr, hin he⟩) (hlisted e)⟩
  · rw [hs.members?_eq, hs'.members?_eq, hroster]
    by_cases hu : u = t
    · subst hu
      rw [if_pos rfl, hr, Option.bind_some, Option.bind_some,
        show (r.without taken).capacity = r.capacity from rfl]
      by_cases hj : j = i
      · subst hj
        simp only [hi, if_true, Option.map_some, and_self, Roster.map_bucket_without]
      · have hother : List.Disjoint taken ((r.bucket j).map Prod.fst) :=
          List.disjoint_of_subset_left htaken.subset (Roster.disjoint_bucket hnodup (Ne.symm hj))
        rw [Roster.bucket_without_of_disjoint hother]
        split <;> simp [hj]
    · simp [hu]
  · obtain ⟨ru, hru, htable⟩ := hs.exists_roster ht
    have hru' := hroster u
    split at hru'
    · subst u
      obtain rfl := Option.some.inj (hr.symm.trans hru)
      obtain ⟨table', ht', htable'⟩ := hs'.exists_table hru'
      refine ⟨table', ht', htable'.strategy.trans htable.strategy.symm,
        htable'.capacity.trans htable.capacity.symm, ?_⟩
      rw [if_pos rfl, htable.entries, htable'.entries]
      exact Roster.length_without hnodup hdistinct hin
    next hu =>
      obtain ⟨table', ht', htable'⟩ := hs'.exists_table (hru'.trans hru)
      refine ⟨table', ht', htable'.strategy.trans htable.strategy.symm,
        htable'.capacity.trans htable.capacity.symm, ?_⟩
      rw [if_neg hu, htable.entries, htable'.entries, Nat.add_zero]

/-! ## Nothing is noted -/

theorem journal_of_updateElement {f : Element V → Element V}
    (h : s.updateElement e f = .ok s') : s'.journal = s.journal := by
  obtain ⟨heap, -, h⟩ := Fault.bind_eq_ok_iff.mp h
  cases h
  rfl

theorem journal_of_removeEntry (h : s.removeEntry t = .ok s') : s'.journal = s.journal := by
  obtain ⟨table, -, h⟩ := Fault.bind_eq_ok_iff.mp h
  split at h
  · cases h
  · cases h
    rfl

theorem journal_of_lock {lock : Lock} (h : s.lock lock = .ok s') : s'.journal = s.journal := by
  unfold Store.lock at h
  split at h <;> cases h
  rfl

theorem journal_of_holdIf {wanted : Bool} (h : s.holdIf wanted e = .ok s') :
    s'.journal = s.journal := by
  unfold holdIf at h
  split at h
  · exact journal_of_updateElement h
  · cases h
    rfl

theorem journal_of_detach (h : s.detach t i e = .ok s') : s'.journal = s.journal := by
  obtain ⟨chain, -, h⟩ := Fault.bind_eq_ok_iff.mp h
  obtain ⟨⟨chain', heap⟩, -, h⟩ := Fault.bind_eq_ok_iff.mp h
  obtain ⟨s₁, hremove, h⟩ := Fault.bind_eq_ok_iff.mp h
  rw [journal_of_updateElement h, journal_of_removeEntry hremove]
  rfl

theorem journal_of_treat {choice : Choice} (h : s.treat t i e choice = .ok s') :
    s'.journal = s.journal := by
  obtain ⟨s₁, hhold, h⟩ := Fault.bind_eq_ok_iff.mp h
  split at h
  · rw [journal_of_detach h, journal_of_holdIf hhold]
  · cases h
    exact journal_of_holdIf hhold

theorem journal_of_walkFrom {choose : Nat → V → Choice} {steps number : Nat}
    {cursor : Option ElementId} {walk : Walk V K}
    (h : walkFrom t i choose steps cursor number s = .ok walk) :
    walk.store.journal = s.journal := by
  induction steps generalizing s cursor number walk with
  | zero =>
    cases cursor with
    | none =>
      cases h
      rfl
    | some e => cases h
  | succ steps ih =>
    cases cursor with
    | none =>
      cases h
      rfl
    | some e =>
      obtain ⟨next, -, h⟩ := Fault.bind_eq_ok_iff.mp h
      obtain ⟨x, -, h⟩ := Fault.bind_eq_ok_iff.mp h
      obtain ⟨s₁, htreat, h⟩ := Fault.bind_eq_ok_iff.mp h
      obtain ⟨rest, hrest, h⟩ := Fault.bind_eq_ok_iff.mp h
      cases h
      exact (ih hrest).trans (journal_of_treat htreat)

theorem journal_of_walkBucket {choose : Nat → V → Choice} {number : Nat} {walk : Walk V K}
    (h : s.walkBucket t i number choose = .ok walk) : walk.store.journal = s.journal := by
  obtain ⟨s₁, hlock, h⟩ := Fault.bind_eq_ok_iff.mp h
  obtain ⟨chain, -, h⟩ := Fault.bind_eq_ok_iff.mp h
  obtain ⟨walk', hwalk, h⟩ := Fault.bind_eq_ok_iff.mp h
  cases h
  exact (journal_of_walkFrom hwalk).trans (journal_of_lock hlock)

theorem journal_of_popAll {steps : Nat} (h : popAll t i steps s = .ok (taken, s')) :
    s'.journal = s.journal := by
  induction steps generalizing s taken with
  | zero => cases h
  | succ steps ih =>
    obtain ⟨chain, -, h⟩ := Fault.bind_eq_ok_iff.mp h
    obtain ⟨⟨e?, chain', heap⟩, -, h⟩ := Fault.bind_eq_ok_iff.mp h
    cases e? with
    | none =>
      cases h
      rfl
    | some e =>
      obtain ⟨s₁, hupdate, h⟩ := Fault.bind_eq_ok_iff.mp h
      obtain ⟨s₂, hremove, h⟩ := Fault.bind_eq_ok_iff.mp h
      obtain ⟨⟨rest, s₃⟩, hrest, h⟩ := Fault.bind_eq_ok_iff.mp h
      cases h
      rw [ih hrest, journal_of_removeEntry hremove, journal_of_updateElement hupdate]
      rfl

theorem journal_of_drainBucket (h : s.drainBucket t i = .ok (taken, s')) :
    s'.journal = s.journal := by
  obtain ⟨s₁, hlock, h⟩ := Fault.bind_eq_ok_iff.mp h
  obtain ⟨chain, -, h⟩ := Fault.bind_eq_ok_iff.mp h
  obtain ⟨⟨released, s₂⟩, hpop, h⟩ := Fault.bind_eq_ok_iff.mp h
  cases h
  exact (journal_of_popAll hpop).trans (journal_of_lock hlock)

end Store

namespace Ledger

variable {l l' : Ledger V K} {t : TableId} {number : Nat} {choose : Nat → V → Choice}
  {entries : List (ElementId × UInt32)} {visits : List (Visit V)}

theorem number_of_visit (h : visit t choose entries number l = some (visits, l')) :
    visits.map Visit.number = List.range' number visits.length := by
  induction entries generalizing l number visits with
  | nil =>
    obtain ⟨rfl, rfl⟩ := by simpa [visit] using h
    rfl
  | cons entry entries ih =>
    obtain ⟨e, hash⟩ := entry
    simp only [visit, Option.bind_eq_bind, Option.bind_eq_some_iff, Option.pure_def,
      Option.some.injEq, Prod.mk.injEq, Prod.exists] at h
    obtain ⟨a, -, visits, l', hvisits, rfl, rfl⟩ := h
    rw [List.map_cons, ih hvisits, List.length_cons, List.range'_succ]

end Ledger

namespace Store

variable {s s' : Store V K} {l l' : Ledger V K} {t : TableId} {i : Nat}

/-- A walk is described by the chain at its beginning and by what was chosen. -/
theorem Agrees.walks (hs : s.Agrees l) {number : Nat} {choose : Nat → V → Choice}
    {visits : List (Visit V)} (hwalk : l.walk t i number choose = some (visits, l'))
    (hs' : s'.Agrees l') : s.Walks t i number choose visits s' := by
  obtain ⟨r, hr, hi, hvisit⟩ := Ledger.walk_eq_some_iff.mp hwalk
  obtain ⟨hentries, hvalue⟩ := Ledger.shows_of_visit hvisit
  have hmembers : visits.map Visit.element = (r.bucket i).map Prod.fst := by
    rw [← hentries]
    simp [Function.comp_def]
  refine ⟨hs.members?_eq_some_iff.mpr ⟨r, hr, hi, hmembers⟩, fun v hv => ?_,
    Ledger.number_of_visit hvisit, Ledger.choice_of_visit hvisit, ?_⟩
  · have hmem : (v.element, v.hash) ∈ r.bucket i := hentries ▸ List.mem_map_of_mem hv
    obtain ⟨x, hx, -, hhash⟩ := hs.listed t r hr _ _ (Roster.mem_bucket_iff.mp hmem).1
    have hv' := hvalue v hv
    rw [← hs.value?_eq, Store.value?, hx, Option.map_some, Option.some.injEq] at hv'
    exact ⟨x, hx, hv'.symm, hhash.symm⟩
  · obtain ⟨es, hyields, hperm⟩ := Ledger.yields_of_visit hvisit
    refine hs.detaches hs' hr hi ?_ hyields hperm (Ledger.roster?_of_visit hr hvisit)
    rw [← hmembers]
    exact List.filter_sublist.map _

theorem Agrees.detaches_of_drain (hs : s.Agrees l) {released : List ElementId}
    (hdrain : l.drain t i = some (released, l')) (hs' : s'.Agrees l') :
    s.members? t i = some released ∧ s.Detaches t i [] released s' := by
  obtain ⟨r, hr, hi, rfl, rfl⟩ := Ledger.drain_eq_some_iff.mp hdrain
  refine ⟨hs.members?_eq_some_iff.mpr ⟨r, hr, hi, rfl⟩, ?_⟩
  have hlive : ∀ e ∈ (r.bucket i).map Prod.fst, ∃ a, l.account? e = some a := fun e he =>
    hs.covered t r hr e ((List.filter_sublist.map Prod.fst).subset he)
  exact hs.detaches hs' hr hi (.refl _) (Ledger.yields_foldl_detach t hlive)
    (List.reverse_perm _) (Ledger.roster?_foldl_detach hr _)

/-! ## Tables that are left alone -/

theorem SameTable.refl (s : Store V K) (t : TableId) : s.SameTable s t :=
  ⟨fun table ht => ⟨table, ht, rfl, rfl, rfl⟩, fun _ => rfl⟩

theorem SameTable.trans {s₁ : Store V K} (h : s.SameTable s₁ t) (h' : s₁.SameTable s' t) :
    s.SameTable s' t := by
  refine ⟨fun table ht => ?_, fun i => (h'.members i).trans (h.members i)⟩
  obtain ⟨table₁, ht₁, hstrategy₁, hcapacity₁, hentries₁⟩ := h.table table ht
  obtain ⟨table', ht', hstrategy, hcapacity, hentries⟩ := h'.table table₁ ht₁
  exact ⟨table', ht', hstrategy.trans hstrategy₁, hcapacity.trans hcapacity₁,
    hentries.trans hentries₁⟩

theorem Agrees.sameTable (hs : s.Agrees l) (hs' : s'.Agrees l')
    (hroster : l'.roster? t = l.roster? t) : s.SameTable s' t := by
  refine ⟨fun table ht => ?_, fun i => by rw [hs.members?_eq, hs'.members?_eq, hroster]⟩
  obtain ⟨r, hr, htable⟩ := hs.exists_roster ht
  obtain ⟨table', ht', htable'⟩ := hs'.exists_table (hroster.trans hr)
  exact ⟨table', ht', htable'.strategy.trans htable.strategy.symm,
    htable'.capacity.trans htable.capacity.symm, htable'.entries.trans htable.entries.symm⟩

theorem unhash_of_owner_ne {e : ElementId} {x : Element V} (hx : s.heap.get? e = some x)
    (howner : x.owner ≠ .table t) : s.unhash t e = .ok (.error .notHashed, s) := by
  simp only [Store.unhash, Heap.read_eq hx, Fault.ok_bind, ne_eq, howner, not_false_eq_true,
    if_true, Fault.pure_eq_ok]

theorem belongs_of_owner {e : ElementId} {x : Element V} (hx : s.heap.get? e = some x)
    (howner : x.owner = .table t) : s.Belongs t e := by
  refine ⟨⟨x, hx, howner, Element.isHashed_iff.mpr ⟨t, howner⟩⟩, fun u table y key ht hy => ?_,
    fun u hu => unhash_of_owner_ne hx (by simpa [howner] using Ne.symm hu)⟩
  obtain rfl := Option.some.inj (hx.symm.trans hy)
  have hclaim : x.claim? = none := by simp only [Element.claim?, howner]
  simp only [Store.hash, strategy_eq ht, Heap.read_eq hx, Fault.ok_bind, hclaim]
  cases table.strategy.equal x.value key <;> rfl

theorem Agrees.owner_of_members? (hs : s.Agrees l) {es : List ElementId} {e : ElementId}
    (hes : s.members? t i = some es) (he : e ∈ es) :
    ∃ x, s.heap.get? e = some x ∧ x.owner = .table t := by
  obtain ⟨r, hr, -, rfl⟩ := hs.members?_eq_some_iff.mp hes
  obtain ⟨x, hx, howner, -⟩ := (hs.mem_bucket_iff hr).mp he
  exact ⟨x, hx, howner⟩

theorem Agrees.sum_length_members? (hs : s.Agrees l) {table : Table V K}
    (ht : s.table? t = some table) :
    ((List.range table.buckets.size).map fun i => ((s.members? t i).getD []).length).sum =
      table.entries := by
  obtain ⟨r, hr, htable⟩ := hs.exists_roster ht
  rw [htable.entries, ← r.sum_length_bucket, htable.size]
  congr 1
  refine List.map_congr_left fun i hi => ?_
  rw [hs.members?_eq, hr, Option.bind_some, if_pos (List.mem_range.mp hi), Option.getD_some,
    List.length_map]

/-- An element that belongs to nobody can be linked, unless the table has another for the key. -/
theorem Agrees.hash_of_nobody (hs : s.Agrees l) (hidle : s.locks = []) {e : ElementId}
    {a : Account V} {x : Element V} {table : Table V K} {key : K} (ha : l.held? e = some a)
    (hx : s.heap.get? e = some x) (hnobody : x.owner = .nobody) (ht : s.table? t = some table)
    (hequal : table.strategy.equal x.value key = true) :
    ∃ result s', s.hash t e key = .ok (result, s') ∧
      (result = .ok () ∨ result = .error .duplicateKey) := by
  obtain ⟨r, hr, htable⟩ := hs.exists_roster ht
  obtain ⟨result, l', hhash⟩ := Ledger.exists_hash hr ha key
  obtain ⟨s', hok, -⟩ := hs.hash hidle hhash
  refine ⟨result, s', hok, ?_⟩
  obtain ⟨b, hb, hxb⟩ := hs.exists_account hx
  have hfree : l.isLinked e = false := by rw [hs.isLinked_eq hx, Element.isHashed, hnobody]
  obtain ⟨r', a', hr', ha', hcases⟩ := Ledger.hash_cases hhash
  obtain rfl := Option.some.inj (hr.symm.trans hr')
  obtain rfl := Option.some.inj ((Ledger.held?_eq_some_iff.mp ha').1.symm.trans hb)
  rw [htable.strategy, hxb.value] at hequal
  simp only [hequal, hfree] at hcases
  obtain ⟨hfalse, -⟩ | ⟨-, hfalse, -⟩ | ⟨-, -, -, hresult, -⟩ | ⟨-, -, -, hresult, -⟩ := hcases
  · cases hfalse
  · cases hfalse
  · exact .inr hresult
  · exact .inl hresult

end Store

namespace Ledger

variable {s : Store V K} {l l' : Ledger V K} {t : TableId} {r : Roster V K} {c : Call V K}
  {reply : Reply V}

/-- A call that does not change a table leaves its list alone. -/
theorem noted_of_not_changes (lists : TableId → Option (Roster V K))
    (event : Call V K × Reply V) (hc : event.1.changes t = false)
    (hmade : ∀ strategy capacity, event.1 = .createTable strategy capacity → event.2 ≠ .made t) :
    noted lists event t = lists t := by
  unfold noted
  split
  case h_1 strategy capacity u =>
    refine Function.update_of_ne ?_ _ _
    rintro rfl
    exact hmade strategy capacity rfl rfl
  case h_7 => rfl
  all_goals
    refine Function.update_of_ne ?_ _ _
    rintro rfl
    simp [Call.changes] at hc

/-- A call that does not concern a table leaves it alone. -/
theorem roster?_of_not_changes (h : l.call c = some (reply, l')) (hc : c.changes t = false)
    (hr : l.roster? t = some r) : l'.roster? t = some r := by
  rw [roster?_of_call h, noted_of_not_changes _ _ hc, hr]
  rintro strategy capacity rfl heq
  -- a new table takes a place that was free
  obtain ⟨rfl, -⟩ := Prod.mk.inj (Option.some.inj h)
  obtain rfl := Reply.made.inj heq
  rw [(l.roster?_createTable strategy capacity).1] at hr
  cases hr

theorem roster?_of_callAll (hs : s.Agrees l) (hidle : s.locks = []) {calls : List (Call V K)}
    {replies : List (Reply V)} (h : l.callAll calls = some (replies, l'))
    (hcalls : ∀ c ∈ calls, c.changes t = false) (hr : l.roster? t = some r) :
    l'.roster? t = some r :=
  callAll_keeps (motive := fun l => l.roster? t = some r) hs hidle h hr
    fun c hc _ _ _ hr _ hcall => roster?_of_not_changes hcall (hcalls c hc) hr

end Ledger

end HashIndex
