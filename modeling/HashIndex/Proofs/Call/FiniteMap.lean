import HashIndex.KeyKind
import HashIndex.Proofs.Call.FlatList
import Mathlib.Data.List.Dedup
import Mathlib.Data.Set.Card
import Mathlib.Data.Setoid.Basic

/-!
# Tables are finite maps

A strategy is lawful if there is an equivalence of keys such that values answer to the keys that
are the same as their own, and keys that are the same have one hash. Under a lawful strategy a table
is a finite map: it has one element at most for each class of keys, and finds it under all of them.

## Main definitions

* `Strategy.Lawful`: lawful strategies.
* `Store.IsMap`: a table is a finite map.

## Main statements

* `Store.Runs.table_isMap`: tables with lawful strategies are finite maps after any run.
* `Strategy.lawful_usual`, `KeyKind.lawful_nocase`: strategies that are lawful.
-/

namespace HashIndex

variable {V K : Type}

/-- A strategy is lawful for an equivalence of keys: a value answers to the keys that are the same
as its own, and keys that are the same have one hash. -/
structure Strategy.Lawful (strategy : Strategy V K) (same : Setoid K) : Prop where
  equal_iff : ∀ v key, strategy.equal v key = true ↔ same.r (strategy.key v) key
  hash_eq : ∀ key key', same.r key key' → strategy.hash key = strategy.hash key'

theorem Strategy.lawful_usual [DecidableEq K] (key : V → K) (hash : K → UInt32)
    (release : Release) (shown : Shown) :
    (Strategy.usual key hash release shown).Lawful ⟨Eq, eq_equivalence⟩ := by
  constructor
  · intro v given
    simp [Strategy.usual]
  · rintro given _ rfl
    rfl

/-- Texts may be compared after they were brought into any form, if that form is hashed as well. -/
theorem KeyKind.lawful_relaxed (name title : String) (form : String → String)
    (hash : String → UInt32) :
    (KeyKind.relaxed name title (fun key => hash (form key))
      fun stored key => form stored = form key).2.Lawful (Setoid.ker form) := by
  constructor
  · intro v given
    simp [KeyKind.relaxed, KeyKind.strict, KeyKind.announcing, Strategy.usual, Setoid.ker_def]
  · intro key key' hsame
    exact congrArg hash hsame

theorem KeyKind.lawful_nocase : ∃ strategy, KeyKind.text.strategy? "nocase" = some strategy ∧
    strategy.Lawful (Setoid.ker KeyKind.lowered) :=
  ⟨_, rfl, KeyKind.lawful_relaxed "nocase" "NoCase" KeyKind.lowered Sdbm.ofString⟩

namespace Store

def InTable (s : Store V K) (t : TableId) (e : ElementId) : Prop := ∃ i, s.InBucket t i e

/-- A table is a finite map from classes of keys to elements. -/
structure IsMap (s : Store V K) (t : TableId) (strategy : Strategy V K) (same : Setoid K) :
    Prop where
  unique : ∀ e f v w, s.InTable t e → s.InTable t f → s.value? e = some v → s.value? f = some w →
    same.r (strategy.key v) (strategy.key w) → e = f
  lookup : ∀ key, ∃ result s', s.call (.lookup t key) = .ok (.found result, s') ∧
    ∀ e, result = .ok e ↔
      s.InTable t e ∧ ∃ v, s.value? e = some v ∧ same.r (strategy.key v) key
  /-- An element that is in no table can be linked if and only if its key is free. -/
  hash : ∀ e v key, s.value? e = some v → 0 < s.references e → ¬s.Linked e →
    same.r (strategy.key v) key → ∃ result s', s.call (.hash t e key) = .ok (.result result, s') ∧
      (result = .ok () ↔
        ∀ f w, s.InTable t f → s.value? f = some w → ¬same.r (strategy.key w) key)
  count : ∃ n s', s.call (.count t) = .ok (.number n, s') ∧
    {q : Quotient same | ∃ e v, s.InTable t e ∧ s.value? e = some v ∧
      q = ⟦strategy.key v⟧}.encard = n
  /-- Visits show the hash of the key that an element has, not of the one it was linked under. -/
  walked : ∀ i number choose, s.Permits (.walk t i number choose) →
    ∃ visits released s', s.call (.walk t i number choose) = .ok (.walked visits released, s') ∧
      ∀ v ∈ visits, s.value? v.element = some v.value ∧
        v.hash = strategy.hash (strategy.key v.value)
  surveyed : ∀ choose, ∃ visits s', s.call (.survey t choose) = .ok (.surveyed visits, s') ∧
    ∀ v ∈ visits.flatten, s.value? v.element = some v.value ∧
      v.hash = strategy.hash (strategy.key v.value)

end Store

namespace Ledger

variable {l l' : Ledger V K} {c : Call V K} {reply : Reply V} {t : TableId} {r : Roster V K}
  {same : Setoid K} {e : ElementId} {hash : UInt32} {a : Account V} {calls : List (Call V K)}
  {replies : List (Reply V)} {trace : List (Call V K × Reply V)}

/-- The keys of the elements of a table are not the same. -/
def KeysDiffer (l : Ledger V K) (same : Setoid K) (r : Roster V K) : Prop :=
  ∀ e ∈ r.elements, ∀ f ∈ r.elements, ∀ a b, l.account? e = some a → l.account? f = some b →
    same.r (r.strategy.key a.value) (r.strategy.key b.value) → e = f

/-- The hash that an element is listed with is that of its own key. -/
theorem Recalls.hash_eq (hrecalls : l.Recalls trace) (hr : l.roster? t = some r)
    (hlawful : r.strategy.Lawful same) (he : (e, hash) ∈ r.entries) (ha : l.account? e = some a) :
    hash = r.strategy.hash (r.strategy.key a.value) := by
  obtain ⟨key, b, -, rfl, hb, hequal⟩ := hrecalls t r e hash hr he
  obtain rfl := Option.some.inj (ha.symm.trans hb)
  exact (hlawful.hash_eq _ _ ((hlawful.equal_iff _ _).mp hequal)).symm

/-- An element whose key is the same as a given one is found under that key. -/
theorem exists_find?_of_same {key : K} (hrecalls : l.Recalls trace) (hr : l.roster? t = some r)
    (hlawful : r.strategy.Lawful same) (he : e ∈ r.elements) (ha : l.account? e = some a)
    (hsame : same.r (r.strategy.key a.value) key) : ∃ f, l.find? r key = some f := by
  obtain ⟨hash, he⟩ := Roster.mem_elements_iff.mp he
  have hhash := hrecalls.hash_eq hr hlawful he ha
  rw [hlawful.hash_eq _ _ hsame] at hhash
  have hequal := (hlawful.equal_iff a.value key).mpr hsame
  by_contra hnone
  rw [← Option.isSome_iff_exists, Bool.not_eq_true, Option.isSome_eq_false_iff,
    Option.isNone_iff_eq_none, find?, Option.map_eq_none_iff, List.find?_eq_none] at hnone
  simpa [hhash, ha, hequal] using hnone (e, hash) he

/-- Keys still differ when an element is added whose key was not found. -/
theorem KeysDiffer.insert {key : K} (hdiffer : l.KeysDiffer same r) (hrecalls : l.Recalls trace)
    (hr : l.roster? t = some r) (hlawful : r.strategy.Lawful same) (ha : l.account? e = some a)
    (hequal : r.strategy.equal a.value key = true) (hfind : l.find? r key = none) :
    l.KeysDiffer same (r.insert e key) := by
  have hsame := (hlawful.equal_iff a.value key).mp hequal
  -- nothing in the table has a key that is the same as the new one
  have hfree : ∀ f ∈ r.elements, ∀ b, l.account? f = some b →
      ¬same.r (r.strategy.key a.value) (r.strategy.key b.value) := by
    intro f hf b hb hsame'
    obtain ⟨g, hg⟩ := exists_find?_of_same hrecalls hr hlawful hf hb
      (same.trans (same.symm hsame') hsame)
    rw [hfind] at hg
    cases hg
  intro f hf g hg b d hb hd hsame'
  rcases List.mem_cons.mp hf with hfe | hfr <;> rcases List.mem_cons.mp hg with hge | hgr
  · rw [hfe, hge]
  · rw [hfe, ha, Option.some.injEq] at hb
    exact absurd (hb ▸ hsame') (hfree g hgr d hd)
  · rw [hge, ha, Option.some.injEq] at hd
    exact absurd (same.symm (hd ▸ hsame')) (hfree f hfr b hb)
  · exact hdiffer f hfr g hgr b d hb hd hsame'

theorem KeysDiffer.mono {r' : Roster V K} (hdiffer : l.KeysDiffer same r)
    (hstrategy : r'.strategy = r.strategy) (hsub : r'.elements ⊆ r.elements) :
    l.KeysDiffer same r' := by
  intro e he f hf a b ha hb hsame
  rw [hstrategy] at hsame
  exact hdiffer e (hsub he) f (hsub hf) a b ha hb hsame

/-- Calls do not change the keys of elements. -/
theorem KeysDiffer.of_effect (hdiffer : l.KeysDiffer same r) (h : l.Effect c reply l')
    (hlive : ∀ e ∈ r.elements, ∃ a, l.account? e = some a) : l'.KeysDiffer same r := by
  have hvalue : ∀ e ∈ r.elements, ∀ a', l'.account? e = some a' →
      ∃ a, l.account? e = some a ∧ a.value = a'.value := by
    intro e he a' ha'
    obtain ⟨a, ha⟩ := hlive e he
    obtain ⟨-, -, hnone⟩ | hbefore := h.exists_account_of ha'
    · rw [ha] at hnone
      cases hnone
    · exact hbefore
  intro e he f hf a' b' ha' hb' hsame
  obtain ⟨a, ha, hvalue_a⟩ := hvalue e he a' ha'
  obtain ⟨b, hb, hvalue_b⟩ := hvalue f hf b' hb'
  rw [← hvalue_a, ← hvalue_b] at hsame
  exact hdiffer e he f hf a b ha hb hsame

theorem keysDiffer_of_call (hcovered : l.Covered) (h : l.call c = some (reply, l'))
    (hrecalls : l.Recalls trace)
    (hdiffer : ∀ t r, l.roster? t = some r → r.strategy.Lawful same → l.KeysDiffer same r)
    {r' : Roster V K} (hr' : l'.roster? t = some r') (hlawful : r'.strategy.Lawful same) :
    l'.KeysDiffer same r' := by
  have heffect := effect_of_call hcovered h
  obtain ⟨r, gone, hr, hthins, -⟩ | ⟨strategy, capacity, -, -, -, rfl⟩ |
    ⟨e, key, r, a, -, -, hr, rfl, ha, hequal, -, hfind⟩ := heffect.roster hr'
  · have hsub : r'.elements ⊆ r.elements := (hthins.sublist.map Prod.fst).subset
    have hkept := (hdiffer t r hr (hthins.strategy ▸ hlawful)).mono hthins.strategy hsub
    exact hkept.of_effect heffect fun e he => hcovered t r hr e (hsub he)
  · intro e he
    cases he
  · have hinserted := (hdiffer t r hr hlawful).insert hrecalls hr hlawful ha hequal hfind
    refine hinserted.of_effect heffect fun f hf => ?_
    rcases List.mem_cons.mp hf with rfl | hf
    · exact ⟨a, ha⟩
    · exact hcovered t r hr f hf

theorem keysDiffer_of_callAll (h : empty.callAll calls = some (replies, l))
    (hr : l.roster? t = some r) (hlawful : r.strategy.Lawful same) : l.KeysDiffer same r := by
  refine (callAll_induction (motive := fun trace l => l.Recalls trace ∧ ∀ t r,
    l.roster? t = some r → r.strategy.Lawful same → l.KeysDiffer same r) ?_ ?_ h).2 t r hr hlawful
  · constructor <;> intro t r <;> simp [roster?, empty]
  · rintro trace l c reply l' ⟨hrecalls, hdiffer⟩ hcovered hcall
    exact ⟨hrecalls.call hcovered hcall, fun t r' hr' hlawful' =>
      keysDiffer_of_call hcovered hcall hrecalls hdiffer hr' hlawful'⟩

/-! ## What is found -/

theorem value?_eq_some_iff {v : V} :
    l.value? e = some v ↔ ∃ a, l.account? e = some a ∧ a.value = v := Option.map_eq_some_iff

/-- An element is found under the keys that are the same as its own. -/
theorem find?_eq_some_iff {key : K} (hrecalls : l.Recalls trace)
    (hdiffer : l.KeysDiffer same r) (hr : l.roster? t = some r)
    (hlawful : r.strategy.Lawful same) :
    l.find? r key = some e ↔
      e ∈ r.elements ∧ ∃ v, l.value? e = some v ∧ same.r (r.strategy.key v) key := by
  have hfound : ∀ f, l.find? r key = some f →
      f ∈ r.elements ∧ ∃ a, l.account? f = some a ∧ same.r (r.strategy.key a.value) key := by
    intro f hf
    obtain ⟨entry, hentry, rfl⟩ := Option.map_eq_some_iff.mp hf
    have htest := List.find?_some hentry
    simp only [Bool.and_eq_true, Option.any_eq_true] at htest
    obtain ⟨-, a, ha, hequal⟩ := htest
    exact ⟨List.mem_map_of_mem (List.mem_of_find?_eq_some hentry), a, ha,
      (hlawful.equal_iff _ _).mp hequal⟩
  constructor
  · intro hfind
    obtain ⟨he, a, ha, hsame⟩ := hfound e hfind
    exact ⟨he, a.value, value?_eq_some_iff.mpr ⟨a, ha, rfl⟩, hsame⟩
  · rintro ⟨he, v, hv, hsame⟩
    obtain ⟨a, ha, rfl⟩ := value?_eq_some_iff.mp hv
    obtain ⟨f, hfind⟩ := exists_find?_of_same hrecalls hr hlawful he ha hsame
    obtain ⟨hf, b, hb, hsame'⟩ := hfound f hfind
    rw [hfind, hdiffer e he f hf a b ha hb (same.trans hsame (same.symm hsame'))]

/-- There are as many classes of keys as there are entries. -/
theorem encard_classes (hdiffer : l.KeysDiffer same r) (hcovered : l.Covered)
    (hr : l.roster? t = some r) (hnodup : r.elements.Nodup) :
    {q : Quotient same | ∃ e v, e ∈ r.elements ∧ l.value? e = some v ∧
      q = ⟦r.strategy.key v⟧}.encard = r.entries.length := by
  let class? : ElementId → Option (Quotient same) := fun e =>
    (l.value? e).map fun v => ⟦r.strategy.key v⟧
  have himage : some '' {q : Quotient same | ∃ e v, e ∈ r.elements ∧ l.value? e = some v ∧
      q = ⟦r.strategy.key v⟧} = class? '' {e | e ∈ r.elements} := by
    ext q
    constructor
    · rintro ⟨q, ⟨e, v, he, hv, rfl⟩, rfl⟩
      exact ⟨e, he, by simp [class?, hv]⟩
    · rintro ⟨e, he, rfl⟩
      obtain ⟨a, ha⟩ := hcovered t r hr e he
      have hv := value?_eq_some_iff.mpr ⟨a, ha, rfl⟩
      exact ⟨_, ⟨e, a.value, he, hv, rfl⟩, by simp [class?, hv]⟩
  have hinjective : Set.InjOn class? {e | e ∈ r.elements} := by
    intro e he f hf heq
    obtain ⟨a, ha⟩ := hcovered t r hr e he
    obtain ⟨b, hb⟩ := hcovered t r hr f hf
    simp only [class?, value?, ha, hb, Option.map_some, Option.some.injEq] at heq
    exact hdiffer e he f hf a b ha hb (Quotient.exact heq)
  rw [← (Option.some_injective _).encard_image, himage, hinjective.encard_image,
    ← List.coe_toFinset, Set.encard_coe_eq_coe_finsetCard, List.toFinset_card_of_nodup hnodup,
    Roster.elements, List.length_map]

/-- Visits show the hashes of the keys that elements have. -/
theorem hash_of_shows {i : Nat} {visits : List (Visit V)} (hrecalls : l.Recalls trace)
    (hr : l.roster? t = some r) (hlawful : r.strategy.Lawful same)
    (hshows : Shows l.value? (r.bucket i) visits) :
    ∀ v ∈ visits, v.hash = r.strategy.hash (r.strategy.key v.value) := by
  intro v hv
  have hmem := List.mem_map_of_mem (f := fun v : Visit V => (v.element, v.hash)) hv
  rw [hshows.entries] at hmem
  obtain ⟨a, ha, hvalue⟩ := value?_eq_some_iff.mp (hshows.value v hv)
  rw [← hvalue]
  exact hrecalls.hash_eq hr hlawful (Roster.mem_bucket_iff.mp hmem).1 ha

theorem exists_bucket_of_shows {value? : ElementId → Option V} {buckets : List Nat}
    {visits : List (List (Visit V))} {vs : List (Visit V)}
    (hshows : List.Forall₂ (fun i vs => Shows value? (r.bucket i) vs) buckets visits)
    (hvs : vs ∈ visits) : ∃ i, Shows value? (r.bucket i) vs := by
  induction hshows with
  | nil => cases hvs
  | cons hfirst _ ih =>
    rcases List.mem_cons.mp hvs with rfl | hvs
    · exact ⟨_, hfirst⟩
    · exact ih hvs

end Ledger

namespace Store

variable {s : Store V K} {l : Ledger V K} {t : TableId} {r : Roster V K} {table : Table V K}
  {e : ElementId} {same : Setoid K} {trace : List (Call V K × Reply V)}

theorem Agrees.inTable_iff (hs : s.Agrees l) (hr : l.roster? t = some r) :
    s.InTable t e ↔ e ∈ r.elements := by
  simp only [InTable, hs.inBucket_iff]
  constructor
  · rintro ⟨i, r', hr', he⟩
    obtain rfl := Option.some.inj (hr.symm.trans hr')
    exact (List.filter_sublist.map _).subset he
  · intro he
    obtain ⟨hash, he⟩ := Roster.mem_elements_iff.mp he
    exact ⟨r.slot hash, r, hr, List.mem_map_of_mem (Roster.mem_bucket_iff.mpr ⟨he, rfl⟩)⟩

theorem Agrees.find?_iff {key : K} (hs : s.Agrees l) (hr : l.roster? t = some r)
    (hlawful : r.strategy.Lawful same) (hrecalls : l.Recalls trace)
    (hdiffer : l.KeysDiffer same r) : l.find? r key = some e ↔
      s.InTable t e ∧ ∃ v, s.value? e = some v ∧ same.r (r.strategy.key v) key := by
  rw [hs.inTable_iff hr, hs.value?_eq]
  exact Ledger.find?_eq_some_iff hrecalls hdiffer hr hlawful

theorem Agrees.exists_lookup (hs : s.Agrees l) (hidle : s.locks = [])
    (hr : l.roster? t = some r) (key : K) :
    ∃ result s', s.call (.lookup t key) = .ok (.found result, s') ∧
      ∀ e, result = .ok e ↔ l.find? r key = some e := by
  obtain ⟨reply, l', hcall⟩ := Ledger.exists_call (c := .lookup t key) hs.covered ⟨r, hr⟩
  obtain ⟨s', hok, -⟩ := hs.call hidle hcall
  obtain ⟨⟨result, l₁⟩, hlookup, h⟩ := Option.bind_eq_some_iff.mp hcall
  obtain ⟨rfl, rfl⟩ := Prod.mk.inj (Option.some.inj h)
  obtain ⟨r', hr', hcases⟩ := Ledger.lookup_cases hlookup
  obtain rfl := Option.some.inj (hr.symm.trans hr')
  refine ⟨result, s', hok, fun e => ?_⟩
  obtain ⟨hnone, rfl, -⟩ | ⟨f, hsome, rfl, -⟩ := hcases
  · simp [hnone]
  · simp [hsome]

theorem Agrees.exists_hash {v : V} {key : K} (hs : s.Agrees l) (hidle : s.locks = [])
    (hr : l.roster? t = some r) (hv : s.value? e = some v) (hheld : 0 < s.references e)
    (hfree : ¬s.Linked e) (hequal : r.strategy.equal v key = true) :
    ∃ result s', s.call (.hash t e key) = .ok (.result result, s') ∧
      (result = .ok () ↔ l.find? r key = none) := by
  obtain ⟨a, ha⟩ := hs.references_pos_iff.mp hheld
  obtain ⟨result, l', hhash⟩ := Ledger.exists_hash hr ha key
  have hcall : l.call (.hash t e key) = some (.result result, l') := by
    simp only [Ledger.call, hhash, Option.bind_eq_bind, Option.bind_some, Option.pure_def]
  obtain ⟨s', hok, -⟩ := hs.call hidle hcall
  obtain ⟨r', b, hr', hb, hcases⟩ := Ledger.hash_cases hhash
  obtain rfl := Option.some.inj (hr.symm.trans hr')
  obtain rfl := Option.some.inj (hv.symm.trans (hs.value?_of_held? hb))
  rw [hs.linked_iff] at hfree
  refine ⟨result, s', hok, ?_⟩
  grind

theorem Agrees.exists_count (hs : s.Agrees l) (hidle : s.locks = []) (hr : l.roster? t = some r) :
    ∃ s', s.call (.count t) = .ok (.number r.entries.length, s') := by
  have hcall : l.call (.count t) = some (.number r.entries.length, l) := by
    simp only [Ledger.call, hr, Option.bind_eq_bind, Option.bind_some, Option.pure_def]
  obtain ⟨s', hok, -⟩ := hs.call hidle hcall
  exact ⟨s', hok⟩

theorem Agrees.exists_walk (hs : s.Agrees l) (hidle : s.locks = []) (hr : l.roster? t = some r)
    {i number : Nat} {choose : Nat → V → Choice} (hpermits : s.Permits (.walk t i number choose)) :
    ∃ visits released s', s.call (.walk t i number choose) = .ok (.walked visits released, s') ∧
      Shows l.value? (r.bucket i) visits := by
  obtain ⟨reply, l', hcall⟩ := Ledger.exists_call hs.covered (hs.permits_iff.mp hpermits)
  obtain ⟨s', hok, -⟩ := hs.call hidle hcall
  obtain ⟨⟨visits, l₁⟩, hwalk, h⟩ := Option.bind_eq_some_iff.mp hcall
  obtain ⟨rfl, rfl⟩ := Prod.mk.inj (Option.some.inj h)
  obtain ⟨r', hr', -, hvisit⟩ := Ledger.walk_eq_some_iff.mp hwalk
  obtain rfl := Option.some.inj (hr.symm.trans hr')
  exact ⟨visits, _, s', hok, Ledger.shows_of_visit hvisit⟩

theorem Agrees.exists_survey (hs : s.Agrees l) (hidle : s.locks = [])
    (hr : l.roster? t = some r) (choose : Nat → V → Bool) :
    ∃ visits s', s.call (.survey t choose) = .ok (.surveyed visits, s') ∧
      ∀ vs ∈ visits, ∃ i, Shows l.value? (r.bucket i) vs := by
  obtain ⟨reply, l', hcall⟩ := Ledger.exists_call (c := .survey t choose) hs.covered ⟨r, hr⟩
  obtain ⟨s', hok, -⟩ := hs.call hidle hcall
  obtain ⟨⟨visits, l₁⟩, hsurvey, h⟩ := Option.bind_eq_some_iff.mp hcall
  obtain ⟨rfl, rfl⟩ := Prod.mk.inj (Option.some.inj h)
  obtain ⟨r', hr', hsurvey⟩ := Option.bind_eq_some_iff.mp hsurvey
  obtain rfl := Option.some.inj (hr.symm.trans hr')
  have hshows := List.forall₂_map_left_iff.mp (Ledger.shows_of_survey hr hsurvey)
  exact ⟨visits, s', hok, fun vs hvs => Ledger.exists_bucket_of_shows hshows hvs⟩

/-- A table whose elements have different keys is a finite map. -/
theorem Agrees.isMap (hs : s.Agrees l) (hidle : s.locks = []) (hr : l.roster? t = some r)
    (hlawful : r.strategy.Lawful same) (hrecalls : l.Recalls trace)
    (hdiffer : l.KeysDiffer same r) : s.IsMap t r.strategy same := by
  have hshown : ∀ i visits, Shows l.value? (r.bucket i) visits → ∀ v ∈ visits,
      s.value? v.element = some v.value ∧
        v.hash = r.strategy.hash (r.strategy.key v.value) := by
    intro i visits hshows v hv
    exact ⟨hs.value?_eq ▸ hshows.value v hv,
      Ledger.hash_of_shows hrecalls hr hlawful hshows v hv⟩
  constructor
  · intro e f v w he hf hv hw hsame
    rw [hs.value?_eq] at hv hw
    obtain ⟨a, ha, rfl⟩ := Ledger.value?_eq_some_iff.mp hv
    obtain ⟨b, hb, rfl⟩ := Ledger.value?_eq_some_iff.mp hw
    exact hdiffer e ((hs.inTable_iff hr).mp he) f ((hs.inTable_iff hr).mp hf) a b ha hb hsame
  · intro key
    obtain ⟨result, s', hok, hresult⟩ := hs.exists_lookup hidle hr key
    refine ⟨result, s', hok, fun e => ?_⟩
    rw [hresult, hs.find?_iff hr hlawful hrecalls hdiffer]
  · intro e v key hv hheld hfree hsame
    obtain ⟨result, s', hok, hresult⟩ := hs.exists_hash hidle hr hv hheld hfree
      ((hlawful.equal_iff v key).mpr hsame)
    refine ⟨result, s', hok, hresult.trans ?_⟩
    rw [Option.eq_none_iff_forall_ne_some]
    simp only [ne_eq, hs.find?_iff hr hlawful hrecalls hdiffer]
    grind
  · obtain ⟨s', hok⟩ := hs.exists_count hidle hr
    refine ⟨r.entries.length, s', hok, ?_⟩
    simp only [hs.inTable_iff hr, hs.value?_eq]
    exact Ledger.encard_classes hdiffer hs.covered hr (hs.nodup t r hr)
  · intro i number choose hpermits
    obtain ⟨visits, released, s', hok, hshows⟩ := hs.exists_walk hidle hr hpermits
    exact ⟨visits, released, s', hok, hshown i visits hshows⟩
  · intro choose
    obtain ⟨visits, s', hok, hshows⟩ := hs.exists_survey hidle hr choose
    refine ⟨visits, s', hok, fun v hv => ?_⟩
    obtain ⟨vs, hvs, hv⟩ := List.mem_flatten.mp hv
    obtain ⟨i, hshows⟩ := hshows vs hvs
    exact hshown i vs hshows v hv

/-- A table with a lawful strategy is a finite map after any run, and an element of it is the one
that was linked. -/
theorem Runs.table_isMap (h : Runs trace s) (ht : s.table? t = some table)
    (hlawful : table.strategy.Lawful same) :
    s.IsMap t table.strategy same ∧ ∀ e v, s.InTable t e → s.value? e = some v →
      ∃ key, lastLink? trace e = some (t, key) ∧ same.r (table.strategy.key v) key := by
  obtain ⟨l, hcalls, hs, hidle, -⟩ := h.exists_agrees
  obtain ⟨r, hr, htable⟩ := hs.exists_roster ht
  have hrecalls := Ledger.recalls_of_callAll hcalls
  simp only [List.zip_map', Prod.mk.eta, List.map_id_fun', id_eq] at hrecalls
  rw [htable.strategy] at hlawful ⊢
  refine ⟨hs.isMap hidle hr hlawful hrecalls (Ledger.keysDiffer_of_callAll hcalls hr hlawful),
    fun e v he hv => ?_⟩
  obtain ⟨hash, he⟩ := Roster.mem_elements_iff.mp ((hs.inTable_iff hr).mp he)
  obtain ⟨key, a, hlast, -, ha, hequal⟩ := hrecalls t r e hash hr he
  rw [hs.value?_eq, Ledger.value?, ha, Option.map_some, Option.some.injEq] at hv
  subst hv
  exact ⟨key, hlast, (hlawful.equal_iff _ _).mp hequal⟩

deriving instance DecidableEq for Visit, Reply

/-- Calls that link three elements into one bucket of a table that does not tell upper from lower
case, and make one more whose key is the same as that of the first one. -/
def foldingCalls : List (Call (Script.Item String) String) :=
  [.createTable (KeyKind.relaxed "nocase" "NoCase" (fun key => Sdbm.ofString (KeyKind.lowered key))
      fun stored key => KeyKind.lowered stored = KeyKind.lowered key).2 .least,
    .create ⟨"a", "Gate", 0⟩, .create ⟨"b", "Lock", 0⟩, .create ⟨"c", "Hinge", 0⟩,
    .create ⟨"d", "GATE", 0⟩, .hash 0 0 "Gate", .hash 0 1 "Lock", .hash 0 2 "Hinge"]

/-- An element is found under another spelling of its key, and the key is taken in all of them. -/
theorem table_isMap_of_folding :
    ∃ (trace : List (Call (Script.Item String) String × Reply (Script.Item String)))
      (s : Store (Script.Item String) String) (table : Table (Script.Item String) String),
      Runs trace s ∧ s.table? 0 = some table ∧
      KeyKind.text.strategy? "nocase" = some table.strategy ∧
      table.strategy.Lawful (Setoid.ker KeyKind.lowered) ∧
      s.IsMap 0 table.strategy (Setoid.ker KeyKind.lowered) ∧
      (∀ e ∈ [2, 1, 0], s.InBucket 0 11 e) ∧
      (∃ s', s.call (.lookup 0 "gAtE") = .ok (.found (.ok 0), s')) ∧
      ∃ refusal s', s.call (.hash 0 3 "gAtE") = .ok (.result (.error refusal), s') := by
  obtain ⟨s, h⟩ := exists_runs foldingCalls [.made 0, .created 0, .created 1, .created 2,
    .created 3, .result (.ok ()), .result (.ok ()), .result (.ok ())] (by decide +kernel)
  obtain ⟨table, ht, hstrategy, -⟩ := h.lists.table 0 _ rfl
  have hlawful : table.strategy.Lawful (Setoid.ker KeyKind.lowered) := by
    rw [hstrategy]
    exact KeyKind.lawful_relaxed "nocase" "NoCase" KeyKind.lowered Sdbm.ofString
  obtain ⟨hmap, -⟩ := Runs.table_isMap h ht hlawful
  obtain ⟨l, hs, -, hl⟩ := h.exists_agrees_with
    (fun l => ((l.roster? 0).map fun r => (r.bucket 11).map Prod.fst, l.value? 0, l.value? 3,
      l.references 3, l.isLinked 3))
    (some [2, 1, 0], some ⟨"a", "Gate", 0⟩, some ⟨"d", "GATE", 0⟩, 1, false) (by decide +kernel)
  simp only [Prod.mk.injEq] at hl
  obtain ⟨hbucket, hgate, hother, hreferences, hunlinked⟩ := hl
  rw [← hs.value?_eq] at hgate hother
  obtain ⟨r, hr, hmembers⟩ := Option.map_eq_some_iff.mp hbucket
  have hin : ∀ e ∈ [2, 1, 0], s.InBucket 0 11 e := fun e he =>
    hs.inBucket_iff.mpr ⟨r, hr, hmembers ▸ he⟩
  have hfirst : s.InTable 0 0 := ⟨11, hin 0 (by decide)⟩
  have hsame (label key : String) (hkey : KeyKind.lowered key = "gate") :
      (Setoid.ker KeyKind.lowered).r (table.strategy.key ⟨label, key, 0⟩) "gAtE" := by
    rw [hstrategy]
    exact hkey.trans (by decide +kernel)
  refine ⟨_, s, table, h, ht, hstrategy ▸ rfl, hlawful, hmap, hin, ?_, ?_⟩
  · obtain ⟨result, s', hok, hresult⟩ := hmap.lookup "gAtE"
    obtain rfl := (hresult 0).mpr ⟨hfirst, _, hgate, hsame "a" "Gate" (by decide +kernel)⟩
    exact ⟨s', hok⟩
  · obtain ⟨result, s', hok, hresult⟩ := hmap.hash 3 _ "gAtE" hother
      (by rw [hs.references_eq, hreferences]; decide)
      (by rw [hs.linked_iff, hunlinked]; decide) (hsame "d" "GATE" (by decide +kernel))
    cases result with
    | ok =>
      exact absurd (hsame "a" "Gate" (by decide +kernel)) (hresult.mp rfl 0 _ hfirst hgate)
    | error refusal => exact ⟨refusal, s', hok⟩

end Store

end HashIndex
