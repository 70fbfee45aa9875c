import HashIndex.Proofs.Agreement.WellFormed
import HashIndex.Proofs.Call.Run
import Mathlib.Data.List.Induction

/-!
# Calls that are refused

An operation that is refused leaves the index as it was, but for one word: a refused duplicate
keeps the hash that it was claimed with. The cached hash of an element that is in no table means
nothing, and nobody ever looks at it before linking the element writes it again. So stores that
differ in such words only are alike, whatever is done with them afterwards.

## Main definitions

* `Element.Similar`, `Store.Similar`: the same words, except for hashes of elements in no table.
* `Store.Continues`: the stores that further calls lead to.
* `Reply.refusal?`: why an operation of a table declined.

## Main statements

* `Store.Agrees.similar`: a ledger says everything about a store but the hashes that mean nothing.
* `Store.Similar.call`, `Store.Similar.continues`: one call, and any calls, on similar stores.
* `Store.Runs.refused`: a refused call might as well not have been made.
-/

namespace HashIndex

variable {V K : Type}

/-! ## What the links determine -/

theorem Heap.Threads.links_eq {h h' : Heap V} {before after : Option ElementId}
    {es : List ElementId} {e : ElementId} (ht : h.Threads before es after)
    (ht' : h'.Threads before es after) (he : e ∈ es) : h'.links e = h.links e := by
  induction es generalizing before with
  | nil => simp at he
  | cons f es ih =>
    obtain ⟨hhead, htail⟩ := ht
    obtain ⟨hhead', htail'⟩ := ht'
    rcases List.mem_cons.mp he with rfl | he
    · exact hhead'.trans hhead.symm
    · exact ih htail htail' he

theorem Chain.Represents.unique {c c' : Chain} {h h' : Heap V} {es : List ElementId}
    (hc : c.Represents h es) (hc' : c'.Represents h' es) : c' = c := by
  obtain ⟨head, length⟩ := c
  obtain ⟨head', length'⟩ := c'
  exact congrArg₂ Chain.mk (hc'.head.trans hc.head.symm) (hc'.length.trans hc.length.symm)

theorem Table.Agrees.unique {h h' : Heap V} {table table' : Table V K} {r : Roster V K}
    (ht : table.Agrees h r) (ht' : table'.Agrees h' r) : table' = table := by
  have hbuckets : table'.buckets = table.buckets := by
    refine Array.ext (ht'.size.trans ht.size.symm) fun i hi' hi => ?_
    obtain ⟨c, hc, hrep⟩ := ht.chain i (ht.size ▸ hi)
    obtain ⟨c', hc', hrep'⟩ := ht'.chain i (ht.size ▸ hi)
    rw [Array.getElem?_eq_getElem hi, Option.some.injEq] at hc
    rw [Array.getElem?_eq_getElem hi', Option.some.injEq] at hc'
    rw [hc, hc', hrep.unique hrep']
  obtain ⟨strategy, capacity, buckets, entries⟩ := table
  obtain ⟨strategy', capacity', buckets', entries'⟩ := table'
  obtain rfl : strategy' = strategy := ht'.strategy.trans ht.strategy.symm
  obtain rfl : capacity' = capacity := ht'.capacity.trans ht.capacity.symm
  obtain rfl : buckets' = buckets := hbuckets
  obtain rfl : entries' = entries := ht'.entries.trans ht.entries.symm
  rfl

/-! ## Similar stores -/

/-- Two elements have the same words, except that the cached hash of an element in no table may be
any other. -/
structure Element.Similar (x y : Element V) : Prop where
  words : y = { x with hash := y.hash }
  hash : x.isHashed = true → y.hash = x.hash

/-- Two stores are the same, except for the cached hashes of elements that are in no table. -/
structure Store.Similar (s w : Store V K) : Prop where
  tables : w.tables = s.tables
  locks : w.locks = s.locks
  journal : w.journal = s.journal
  size : w.heap.size = s.heap.size
  element : ∀ e, Option.Rel Element.Similar (s.heap.get? e) (w.heap.get? e)

/-- Why an operation of a table declined, if it did. -/
def Reply.refusal? : Reply V → Option Refusal
  | .result (.error refusal) | .found (.error refusal) => some refusal
  | _ => none

namespace Element

variable {x y : Element V}

theorem Similar.refl (x : Element V) : x.Similar x := ⟨rfl, fun _ => rfl⟩

theorem Similar.owner (h : x.Similar y) : y.owner = x.owner := by rw [h.words]

theorem Similar.isHashed_eq (h : x.Similar y) : y.isHashed = x.isHashed := by
  unfold isHashed
  rw [h.owner]

theorem Similar.symm (h : x.Similar y) : y.Similar x :=
  ⟨by rw [h.words], fun hhashed => (h.hash (h.isHashed_eq ▸ hhashed)).symm⟩

theorem Similar.links (h : x.Similar y) : (y.prev, y.next) = (x.prev, x.next) := by rw [h.words]

theorem Similar.agrees {a : Account V} (h : x.Similar y) (hx : x.Agrees a) : y.Agrees a := by
  rw [h.words]
  exact ⟨hx.value, hx.release, hx.count, hx.unclaimed, hx.unlinked⟩

theorem Agrees.owner_of_not_isHashed {a : Account V} (hx : x.Agrees a)
    (hhashed : x.isHashed = false) : x.owner = .nobody := by
  have hunclaimed := hx.unclaimed
  cases howner : x.owner <;> simp_all [isHashed]

end Element

namespace Store

variable {s s' s₁ w w₁ : Store V K} {l l' : Ledger V K} {c : Call V K} {reply : Reply V}
  {e : ElementId} {t : TableId} {x y : Element V} {table : Table V K} {key : K}
  {refusal : Refusal} {trace rest : List (Call V K × Reply V)}

theorem Similar.refl (s : Store V K) : s.Similar s := by
  refine ⟨rfl, rfl, rfl, rfl, fun e => ?_⟩
  cases s.heap.get? e with
  | none => exact .none
  | some x => exact .some (.refl x)

/-- The hash of an element that is in no table may be overwritten. -/
theorem Similar.write (hx : s.heap.get? e = some x) (hash : UInt32)
    (hhashed : x.isHashed = false) :
    s.Similar { s with heap := s.heap.write e { x with hash := hash } } := by
  refine ⟨rfl, rfl, rfl, Heap.size_write _ _ _, fun f => ?_⟩
  rw [Heap.get?_write hx]
  split
  · subst f
    rw [hx]
    exact .some ⟨rfl, by simp [hhashed]⟩
  · exact (Similar.refl s).element f

theorem Similar.exists_get? (h : s.Similar w) (hx : s.heap.get? e = some x) :
    ∃ y, w.heap.get? e = some y ∧ x.Similar y := by
  have hrel := h.element e
  rw [hx] at hrel
  cases hy : w.heap.get? e <;> simp_all

theorem Similar.symm (h : s.Similar w) : w.Similar s := by
  refine ⟨h.tables.symm, h.locks.symm, h.journal.symm, h.size.symm, fun e => ?_⟩
  have hrel := h.element e
  generalize s.heap.get? e = x? at hrel ⊢
  generalize w.heap.get? e = y? at hrel ⊢
  cases hrel with
  | none => exact .none
  | some hxy => exact .some hxy.symm

theorem Similar.links_eq (h : s.Similar w) (e : ElementId) : w.heap.links e = s.heap.links e := by
  have hrel := h.element e
  unfold Heap.links
  generalize s.heap.get? e = x? at hrel ⊢
  generalize w.heap.get? e = y? at hrel ⊢
  cases hrel with
  | none => rfl
  | some hxy => simpa using hxy.links

/-- A ledger does not know the hashes of elements that are in no table. -/
theorem Similar.agrees (h : s.Similar w) (hs : s.Agrees l) : w.Agrees l := by
  have htable : w.table? = s.table? := by
    funext t
    simp [Store.table?, h.tables]
  constructor
  · rw [h.size, hs.elements]
  · rw [h.tables, hs.tables]
  · intro e
    have hrel := hs.element e
    have hsimilar := h.element e
    generalize s.heap.get? e = x? at hrel hsimilar
    generalize w.heap.get? e = y? at hsimilar ⊢
    generalize l.account? e = a? at hrel ⊢
    cases hsimilar with
    | none => exact hrel
    | some hxy =>
      cases hrel with
      | some hxa => exact .some (hxy.agrees hxa)
  · intro t
    rw [htable]
    exact rel_of_rel (fun _ _ _ _ ht => ht.congr fun _ _ _ _ => h.links_eq _) (hs.table t)
  · intro t r hr e hash he
    obtain ⟨x, hx, howner, hhash⟩ := hs.listed t r hr e hash he
    obtain ⟨y, hy, hxy⟩ := h.exists_get? hx
    exact ⟨y, hy, hxy.owner.trans howner,
      (hxy.hash (Element.isHashed_iff.mpr ⟨t, howner⟩)).trans hhash⟩
  · intro e y t hy howner
    obtain ⟨x, hx, hyx⟩ := h.symm.exists_get? hy
    exact hs.owned e x t hx (hyx.owner.trans howner)
  · exact hs.nodup

/-- An element of a table has the neighbours that the ledger lists it between. -/
theorem Agrees.links_eq_of_owner (hs : s.Agrees l) (hw : w.Agrees l) (hx : s.heap.get? e = some x)
    (howner : x.owner = .table t) : w.heap.links e = s.heap.links e := by
  obtain ⟨r, hr, he⟩ := hs.owned e x t hx howner
  obtain ⟨hash, he⟩ := Roster.mem_elements_iff.mp he
  have hi := r.slot_lt hash
  have hmem := List.mem_map_of_mem (f := Prod.fst) (Roster.mem_bucket_iff.mpr ⟨he, rfl⟩)
  obtain ⟨table, -, htable⟩ := hs.exists_table hr
  obtain ⟨table', -, htable'⟩ := hw.exists_table hr
  obtain ⟨c, -, hrep⟩ := htable.chain _ hi
  obtain ⟨c', -, hrep'⟩ := htable'.chain _ hi
  exact hrep.threads.links_eq hrep'.threads hmem

/-- Elements that agree with one account are similar. -/
theorem Agrees.element_similar (hs : s.Agrees l) (hw : w.Agrees l) {a : Account V}
    (hx : s.heap.get? e = some x) (hy : w.heap.get? e = some y) (hxa : x.Agrees a)
    (hya : y.Agrees a) : x.Similar y := by
  have hhashed : y.isHashed = x.isHashed := (hw.isLinked_eq hy).symm.trans (hs.isLinked_eq hx)
  have hcount : y.count = x.count := by rw [hya.count, hxa.count, hhashed]
  have hvalue := hya.value.trans hxa.value.symm
  have hrelease := hya.release.trans hxa.release.symm
  -- the other words are those of the place in a chain, if there is one
  have hplace : y.owner = x.owner ∧ (y.prev, y.next) = (x.prev, x.next) ∧
      (x.isHashed = true → y.hash = x.hash) := by
    cases hlinked : x.isHashed with
    | false =>
      obtain ⟨hprev, hnext⟩ := hxa.unlinked hlinked
      obtain ⟨hprev', hnext'⟩ := hya.unlinked (hhashed.trans hlinked)
      refine ⟨?_, by rw [hprev, hnext, hprev', hnext'], by simp⟩
      rw [hxa.owner_of_not_isHashed hlinked, hya.owner_of_not_isHashed (hhashed.trans hlinked)]
    | true =>
      obtain ⟨t, howner⟩ := Element.isHashed_iff.mp hlinked
      have hlinks := hs.links_eq_of_owner hw hx howner
      rw [Heap.links_eq hx, Heap.links_eq hy, Option.some.injEq] at hlinks
      obtain ⟨r, hr, he⟩ := hs.owned e x t hx howner
      obtain ⟨hash, he⟩ := Roster.mem_elements_iff.mp he
      obtain ⟨x', hx', -, hhash⟩ := hs.listed t r hr e hash he
      obtain ⟨y', hy', howner', hhash'⟩ := hw.listed t r hr e hash he
      obtain rfl := Option.some.inj (hx.symm.trans hx')
      obtain rfl := Option.some.inj (hy.symm.trans hy')
      exact ⟨howner'.trans howner.symm, hlinks, fun _ => hhash'.trans hhash.symm⟩
  obtain ⟨howner, hlinks, hhash⟩ := hplace
  obtain ⟨hprev, hnext⟩ := Prod.mk.inj hlinks
  refine ⟨?_, hhash⟩
  obtain ⟨value, prev, next, owner, hash, count, release⟩ := x
  obtain ⟨value', prev', next', owner', hash', count', release'⟩ := y
  simp only at hvalue hprev hnext howner hcount hrelease
  subst hvalue hprev hnext howner hcount hrelease
  rfl

/-- A ledger says everything about a store but the hashes of elements that are in no table. -/
theorem Agrees.similar (hs : s.Agrees l) (hw : w.Agrees l) (hlocks : w.locks = s.locks)
    (hjournal : w.journal = s.journal) : s.Similar w := by
  have helement : ∀ e, Option.Rel Element.Similar (s.heap.get? e) (w.heap.get? e) := by
    intro e
    cases hx : s.heap.get? e with
    | none =>
      cases hy : w.heap.get? e with
      | none => exact .none
      | some y =>
        obtain ⟨a, ha, -⟩ := hw.exists_account hy
        obtain ⟨x, hx', -⟩ := hs.exists_element ha
        rw [hx] at hx'
        cases hx'
    | some x =>
      obtain ⟨a, ha, hxa⟩ := hs.exists_account hx
      obtain ⟨y, hy, hya⟩ := hw.exists_element ha
      rw [hy]
      exact .some (hs.element_similar hw hx hy hxa hya)
  have htable : ∀ t, w.table? t = s.table? t := by
    intro t
    have hrel := hs.table t
    have hrel' := hw.table t
    generalize s.table? t = table? at hrel ⊢
    generalize w.table? t = table?' at hrel' ⊢
    generalize l.roster? t = r? at hrel hrel'
    cases hrel with
    | none =>
      cases hrel' with
      | none => rfl
    | some ht =>
      cases hrel' with
      | some ht' => rw [ht.unique ht']
  refine ⟨Array.ext (hw.tables.trans hs.tables.symm) fun t ht' ht => ?_, hlocks, hjournal,
    hw.elements.trans hs.elements.symm, helement⟩
  simpa [Store.table?, ht, ht'] using htable t

/-- The chain of a bucket has the same elements in similar stores, with the same words. -/
theorem Similar.elements_eq (h : s.Similar w) (hs : s.Agrees l) {i : Nat} {c : Chain}
    (hc : s.chain t i = .ok c) : w.chain t i = .ok c ∧ c.elements w.heap = c.elements s.heap := by
  obtain ⟨table, ht, hc⟩ := exists_table_of_chain hc
  have hsame : w.table? t = some table := by rw [Store.table?, h.tables]; exact ht
  refine ⟨chain_eq hsame hc, ?_⟩
  obtain ⟨es, hrep, hmem⟩ := hs.wellFormed.chain t table i c ht hc
  rw [hrep.elements, (hrep.congr fun e _ => h.links_eq e).elements, Except.ok.injEq]
  refine List.filterMap_congr fun e he => ?_
  obtain ⟨x, hx, howner, -⟩ := (hmem e).mp he
  obtain ⟨y, hy, hxy⟩ := h.exists_get? hx
  have hhash := hxy.hash (Element.isHashed_iff.mpr ⟨t, howner⟩)
  rw [hx, hy, hxy.words, hhash]

/-- Similar stores permit the same calls. -/
theorem Similar.permits_iff (h : s.Similar w) (hs : s.Agrees l) : w.Permits c ↔ s.Permits c :=
  (h.agrees hs).permits_iff.trans hs.permits_iff.symm

/-- A call on one of two similar stores has the same answer on the other, and leaves them
similar. -/
theorem Similar.call (h : s.Similar w) (hs : s.Agrees l) (hidle : s.locks = [])
    (hpermits : s.Permits c) (hcall : s.call c = .ok (reply, s₁)) :
    ∃ w₁, w.call c = .ok (reply, w₁) ∧ s₁.Similar w₁ := by
  obtain ⟨reply', l', hcall'⟩ := Ledger.exists_call hs.covered (hs.permits_iff.mp hpermits)
  obtain ⟨s₂, hok, hs₂, hidle₂⟩ := hs.call hidle hcall'
  obtain ⟨rfl, rfl⟩ := Prod.mk.inj (Except.ok.inj (hcall.symm.trans hok))
  obtain ⟨w₁, hok', hw₁, hidle'⟩ := (h.agrees hs).call (h.locks.trans hidle) hcall'
  exact ⟨w₁, hok', hs₂.similar hw₁ (hidle'.trans hidle₂.symm)
    ((journal_of_call hok').trans (journal_of_call hok).symm)⟩

/-! ## What comes after a store -/

/-- A store goes on to another by calls that were permitted, and that were answered as the trace
says. -/
inductive Continues (s : Store V K) : List (Call V K × Reply V) → Store V K → Prop
  | refl : s.Continues [] s
  | call {trace : List (Call V K × Reply V)} {s₁ s₂ : Store V K} {c : Call V K} {reply : Reply V}
    (h : s.Continues trace s₁) (hpermits : s₁.Permits c) (hcall : s₁.call c = .ok (reply, s₂)) :
    s.Continues (trace ++ [(c, reply)]) s₂

/-- What comes after a run is a longer run. -/
theorem Runs.append (h : Runs trace s) (hrest : s.Continues rest s₁) :
    Runs (trace ++ rest) s₁ := by
  induction hrest with
  | refl => simpa using h
  | call _ hpermits hcall ih =>
    rw [← List.append_assoc]
    exact ih.call hpermits hcall

theorem Runs.journal_eq (h : Runs trace s) : s.journal = [] := by
  cases h with
  | empty => rfl
  | call _ _ hcall => exact journal_of_call hcall

/-- A trace leads to one store only. -/
theorem Runs.unique (h : Runs trace s) (h' : Runs trace s') : s' = s := by
  induction h generalizing s' with
  | empty =>
    generalize htrace : ([] : List (Call V K × Reply V)) = trace at h'
    cases h' with
    | empty => rfl
    | call => simp at htrace
  | call _ _ hcall ih =>
    obtain ⟨s₁, h₁, -, hcall'⟩ := h'.exists_last
    obtain rfl := ih h₁
    exact (Prod.mk.inj (Except.ok.inj (hcall'.symm.trans hcall))).2

/-- A longer run comes after a shorter one. -/
theorem Runs.continues (h : Runs trace s) (hall : Runs (trace ++ rest) s₁) :
    s.Continues rest s₁ := by
  induction rest using List.reverseRecOn generalizing s₁ with
  | nil =>
    obtain rfl := h.unique (by simpa using hall)
    exact .refl
  | append_singleton rest last ih =>
    rw [← List.append_assoc] at hall
    obtain ⟨s₂, hbefore, hpermits, hcall⟩ := hall.exists_last
    exact (ih hbefore).call hpermits hcall

/-- Similar stores go on in the same ways. -/
theorem Similar.continues (h : s.Similar w) (hs : s.Agrees l) (hidle : s.locks = [])
    (hrest : s.Continues rest s₁) : ∃ w₁, w.Continues rest w₁ ∧ s₁.Similar w₁ := by
  suffices hstep : (∃ l₁, s₁.Agrees l₁ ∧ s₁.locks = []) ∧
      ∃ w₁, w.Continues rest w₁ ∧ s₁.Similar w₁ from hstep.2
  induction hrest with
  | refl => exact ⟨⟨l, hs, hidle⟩, w, .refl, h⟩
  | call _ hpermits hcall ih =>
    obtain ⟨⟨l₁, hs₁, hidle₁⟩, w₁, hw, hsimilar⟩ := ih
    obtain ⟨w₂, hok, hsimilar'⟩ := hsimilar.call hs₁ hidle₁ hpermits hcall
    obtain ⟨reply', l₂, hcall'⟩ := Ledger.exists_call hs₁.covered (hs₁.permits_iff.mp hpermits)
    obtain ⟨s₂, hok₂, hs₂, hidle₂⟩ := hs₁.call hidle₁ hcall'
    obtain ⟨-, rfl⟩ := Prod.mk.inj (Except.ok.inj (hcall.symm.trans hok₂))
    exact ⟨⟨l₂, hs₂, hidle₂⟩, w₂, hw.call ((hsimilar.permits_iff hs₁).mpr hpermits) hok, hsimilar'⟩

/-- Whatever is done with one of two stores can be done with the other, with the same answers, and
leaves them similar again. -/
def Indistinguishable (s w : Store V K) : Prop :=
  ∀ rest, (∀ s₁, s.Continues rest s₁ → ∃ w₁, w.Continues rest w₁ ∧ s₁.Similar w₁) ∧
    ∀ w₁, w.Continues rest w₁ → ∃ s₁, s.Continues rest s₁ ∧ s₁.Similar w₁

theorem Similar.indistinguishable (h : s.Similar w) (hs : s.Agrees l) (hidle : s.locks = []) :
    s.Indistinguishable w := by
  refine fun rest => ⟨fun s₁ hrest => h.continues hs hidle hrest, fun w₁ hrest => ?_⟩
  obtain ⟨s₁, hrest', hsimilar⟩ := h.symm.continues (h.agrees hs) (h.locks.trans hidle) hrest
  exact ⟨s₁, hrest', hsimilar.symm⟩

/-! ## Refused calls -/

theorem table_eq_ok_iff : s.table t = .ok table ↔ s.table? t = some table := by
  unfold Store.table
  grind

/-- A bucket is locked just if nothing is locked. -/
theorem lock_eq_ok_iff {lock : Lock} :
    s.lock lock = .ok s' ↔ s.locks = [] ∧ { s with locks := [lock] } = s' := by
  unfold Store.lock
  split <;> simp_all

/-- A duplicate is claimed, given its hash and abandoned. -/
theorem hash_refused (hidle : s.locks = []) (h : s.hash t e key = .ok (.error refusal, s')) :
    s' = s ∨ refusal = .duplicateKey ∧ ∃ table x, s.table? t = some table ∧
      s.heap.get? e = some x ∧ x.owner = .nobody ∧ s'.settle = { s.settle with
        heap := s.heap.write e { x with hash := table.strategy.hash key } } := by
  simp only [Store.hash, Store.strategy, Fault.bind_eq_ok_iff, Fault.pure_eq_ok_iff,
    table_eq_ok_iff, Heap.read_eq_ok_iff] at h
  obtain ⟨_, ⟨table, ht, rfl⟩, x, hx, h⟩ := h
  split at h
  · simp only [Fault.pure_eq_ok_iff, Prod.mk.injEq] at h
    exact .inl h.2.symm
  cases howner : x.owner with
  | claimed | table =>
    simp only [Element.claim?, howner, Fault.pure_eq_ok_iff, Prod.mk.injEq] at h
    exact .inl h.2.symm
  | nobody =>
    set claimed : Element V := { x with owner := .claimed } with hclaimed
    set hash := table.strategy.hash key with hhash
    have hclaim : Store.updateElementM { s with heap := s.heap.write e claimed } e
        (Element.setHash hash) =
          .ok { s with heap := s.heap.write e { claimed with hash := hash } } := by
      rw [updateElementM_eq (by rw [Heap.get?_write hx, if_pos rfl]) (if_pos rfl), Heap.write_write]
    have habandon : ∀ s' : Store V K, s'.heap = s.heap.write e { claimed with hash := hash } →
        s'.updateElement e .abandon =
          .ok { s' with heap := s.heap.write e { x with hash := hash } } := by
      intro s' hheap
      have hget : s'.heap.get? e = some { claimed with hash := hash } := by
        rw [hheap, Heap.get?_write hx, if_pos rfl]
      rw [updateElement_eq hget, hheap, Heap.write_write]
      simp only [Element.abandon, hclaimed, howner]
    set s₁ : Store V K := { s with heap := s.heap.write e { claimed with hash := hash } } with hs₁
    have ht₁ : s₁.table? t = some table := ht
    simp only [Element.claim?, howner, ← hclaimed, hclaim, select_eq ht₁, Fault.ok_bind,
      Fault.bind_eq_ok_iff] at h
    obtain ⟨s₂, hlock, -, -, found, -, h⟩ := h
    obtain ⟨-, rfl⟩ := lock_eq_ok_iff.mp hlock
    split at h
    · rw [habandon _ rfl, Fault.ok_bind, Fault.pure_eq_ok_iff] at h
      obtain ⟨heq, rfl⟩ := Prod.mk.inj h
      refine .inr ⟨(Except.error.inj heq).symm, table, x, ht, hx, howner, ?_⟩
      simp [settle, unlock, note, hidle, hs₁, hhash]
    · obtain ⟨s₃, -, h⟩ := Fault.bind_eq_ok_iff.mp h
      cases h

/-- Whoever is refused when he takes an element out leaves the store as it was. -/
theorem unhash_refused (h : s.unhash t e = .ok (.error refusal, s')) : s' = s := by
  simp only [Store.unhash, Fault.bind_eq_ok_iff] at h
  obtain ⟨x, -, h⟩ := h
  split at h
  · simp only [Fault.pure_eq_ok_iff, Prod.mk.injEq] at h
    exact h.2.symm
  · obtain ⟨⟨bucket, s₁⟩, -, h⟩ := Fault.bind_eq_ok_iff.mp h
    obtain ⟨s₂, -, h⟩ := Fault.bind_eq_ok_iff.mp h
    obtain ⟨y, -, h⟩ := Fault.bind_eq_ok_iff.mp h
    split at h
    · cases h
    · obtain ⟨table, -, h⟩ := Fault.bind_eq_ok_iff.mp h
      split at h
      · cases h
      · obtain ⟨s₃, -, h⟩ := Fault.bind_eq_ok_iff.mp h
        cases h

theorem lookup_refused (hidle : s.locks = []) (h : s.lookup t key = .ok (.error refusal, s')) :
    s'.settle = s.settle := by
  simp only [Store.lookup, Store.select, Fault.bind_eq_ok_iff, Fault.pure_eq_ok_iff] at h
  obtain ⟨strategy, -, bucket, ⟨table, -, rfl⟩, s₁, hlock, c, -, found, -, h⟩ := h
  obtain ⟨-, rfl⟩ := lock_eq_ok_iff.mp hlock
  cases found with
  | none =>
    simp only [Fault.pure_eq_ok_iff, Prod.mk.injEq] at h
    rw [← h.2]
    simp [settle, unlock, note, hidle]
  | some f =>
    obtain ⟨s₂, -, h⟩ := Fault.bind_eq_ok_iff.mp h
    cases h

/-- What a refused call leaves behind: nothing, or the hash of a duplicate. -/
theorem call_refused (hidle : s.locks = []) (hjournal : s.journal = [])
    (hcall : s.call c = .ok (reply, s')) (hrefused : reply.refusal? = some refusal) :
    s' = s ∨ refusal = .duplicateKey ∧ ∃ t e key table x, c = .hash t e key ∧
      s.table? t = some table ∧ s.heap.get? e = some x ∧ x.owner = .nobody ∧
      s' = { s with heap := s.heap.write e { x with hash := table.strategy.hash key } } := by
  have hsettle : s.settle = s := by rw [settle, ← hjournal]
  cases c <;> simp only [call, Fault.bind_eq_ok_iff, Fault.pure_eq_ok_iff, Except.ok.injEq,
    Prod.mk.injEq, Prod.exists] at hcall
  case hash t e key =>
    obtain ⟨result, s₁, hhash, rfl, rfl⟩ := hcall
    cases result with
    | ok => cases hrefused
    | error =>
      obtain rfl := Option.some.inj hrefused
      obtain rfl | ⟨hduplicate, table, x, ht, hx, howner, heq⟩ := hash_refused hidle hhash
      · exact .inl hsettle
      · exact .inr ⟨hduplicate, t, e, key, table, x, rfl, ht, hx, howner, hsettle ▸ heq⟩
  case unhash t e =>
    obtain ⟨result, s₁, hunhash, rfl, rfl⟩ := hcall
    cases result with
    | ok => cases hrefused
    | error =>
      obtain rfl := unhash_refused hunhash
      exact .inl hsettle
  case lookup t key =>
    obtain ⟨result, s₁, hlookup, rfl, rfl⟩ := hcall
    cases result with
    | ok => cases hrefused
    | error => exact .inl ((lookup_refused hidle hlookup).trans hsettle)
  case create | createTable | freeTable =>
    obtain ⟨rfl, -⟩ := hcall
    cases hrefused
  case hold | count =>
    obtain ⟨_, -, rfl, -⟩ := hcall
    cases hrefused
  case walk =>
    obtain ⟨walk, -, rfl, -⟩ := hcall
    cases hrefused
  case put | drain =>
    obtain ⟨_, _, -, rfl, -⟩ := hcall
    cases hrefused
  case lengths | survey =>
    obtain ⟨_, -, _, _, -, rfl, -⟩ := hcall
    cases hrefused

/-- A refused call might as well not have been made. All it may leave behind is the cached hash of a
duplicate; the chains are as before, with all words of their elements, and so are the counters of
the tables and all other words of the elements. And the cached hashes of elements in no table, that
one included, may be what they like: whatever is done afterwards, it is permitted and answered in
the same way, and the values that are destroyed meanwhile are the same. -/
theorem Runs.refused (h : Runs trace s) (hpermits : s.Permits c)
    (hcall : s.call c = .ok (reply, s')) (hrefused : reply.refusal? = some refusal) :
    (s' = s ∨ refusal = .duplicateKey ∧ ∃ t e key table x, c = .hash t e key ∧
      s.table? t = some table ∧ s.heap.get? e = some x ∧ x.owner = .nobody ∧
      s' = { s with heap := s.heap.write e { x with hash := table.strategy.hash key } }) ∧
    s.Similar s' ∧
    (∀ t i c, s.chain t i = .ok c →
      s'.chain t i = .ok c ∧ c.elements s'.heap = c.elements s.heap) ∧
    (∀ w, s.Similar w → s.Indistinguishable w) ∧
    ∀ rest, (∃ s₁, Runs (trace ++ (c, reply) :: rest) s₁) ↔ ∃ s₁, Runs (trace ++ rest) s₁ := by
  obtain ⟨l, -, hs, hidle⟩ := h.exists_ledger
  have hjournal := h.journal_eq
  have hleft := call_refused hidle hjournal hcall hrefused
  have hsimilar : s.Similar s' := by
    obtain rfl | ⟨-, t, e, key, table, x, -, -, hx, howner, rfl⟩ := hleft
    · exact .refl _
    · exact .write hx _ (by simp [Element.isHashed, howner])
  refine ⟨hleft, hsimilar, fun t i c hc => hsimilar.elements_eq hs hc,
    fun w hw => hw.indistinguishable hs hidle, fun rest => ?_⟩
  have hlonger : Runs (trace ++ [(c, reply)]) s' := h.call hpermits hcall
  have hbisim := hsimilar.indistinguishable hs hidle rest
  constructor
  · rintro ⟨s₁, hrun⟩
    rw [List.append_cons] at hrun
    obtain ⟨s₂, hrest, -⟩ := hbisim.2 s₁ (hlonger.continues hrun)
    exact ⟨s₂, h.append hrest⟩
  · rintro ⟨s₁, hrun⟩
    obtain ⟨s₂, hrest, -⟩ := hbisim.1 s₁ (h.continues hrun)
    refine ⟨s₂, ?_⟩
    rw [List.append_cons]
    exact hlonger.append hrest

theorem refused_of_duplicate : ∃ (trace : List (Call Nat Nat × Reply Nat)) (s s' : Store Nat Nat),
    Runs trace s ∧ s.Permits (.hash 0 1 7) ∧
      s.call (.hash 0 1 7) = .ok (.result (.error .duplicateKey), s') ∧ s.Similar s' ∧
      s.Indistinguishable s' := by
  obtain ⟨s', h'⟩ := exists_runs (linkingCalls ++ [.create 7, .hash 0 1 7])
    [.made 0, .created 0, .result (.ok ()), .created 1, .result (.error .duplicateKey)] rfl
  change Runs (linkingCalls.zip [.made 0, .created 0, .result (.ok ())] ++ [(.create 7, .created 1)]
    ++ [(.hash 0 1 7, .result (.error .duplicateKey))]) s' at h'
  obtain ⟨s, h, hpermits, hcall⟩ := h'.exists_last
  obtain ⟨-, hsimilar, -, hsame, -⟩ := Runs.refused h hpermits hcall rfl
  exact ⟨_, s, s', h, hpermits, hcall, hsimilar, hsame s' hsimilar⟩

end Store

end HashIndex
