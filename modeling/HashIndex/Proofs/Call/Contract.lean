import HashIndex.Proofs.Call.Decided
import HashIndex.Proofs.Call.FiniteMap

/-!
# Strategies that keep the contract

A table looks for a key in one bucket only, and there only among the elements whose cached hash is
that of the key. All that is asked of a strategy is that a value answers to no key with another hash
than the one of its own key has: values may answer to many keys, and two keys that one value answers
to need not have anything else in common. That is enough for nothing to be missed. The cached hash
of an element is not even the hash of its own key as such, but that of the key it was linked under;
the element answered to it then, so that the two are the same.

## Main definitions

* `Strategy.KeepsContract`: values answer only to keys with the hash of their own.
* `Store.AnswersTo`: an element of a table answers to a key.
* `LinkedSince`: which of two elements was linked last.

## Main statements

* `Store.Runs.answers_by_contract`: looking into one bucket is as good as looking into all of the
  table.
-/

namespace HashIndex

variable {V K : Type}

/-- A value answers only to keys that have the hash of its own. It need not answer to its own key,
nor to all the keys that other values with the same key answer to. -/
def Strategy.KeepsContract (strategy : Strategy V K) : Prop :=
  ∀ v key, strategy.equal v key = true → strategy.hash key = strategy.hash (strategy.key v)

/-- A lawful strategy keeps the contract. -/
theorem Strategy.Lawful.keepsContract {strategy : Strategy V K} {same : Setoid K}
    (h : strategy.Lawful same) : strategy.KeepsContract := fun v key hequal =>
  (h.hash_eq _ _ ((h.equal_iff v key).mp hequal)).symm

/-- An element is in a chain of a table, whichever, and its value answers to a key. -/
def Store.AnswersTo (s : Store V K) (t : TableId) (strategy : Strategy V K) (key : K)
    (e : ElementId) : Prop :=
  s.InTable t e ∧ ∃ v, s.value? e = some v ∧ strategy.equal v key = true

/-- A call of the trace linked one element, and neither it nor a later one linked the other. -/
def LinkedSince (trace : List (Call V K × Reply V)) (e f : ElementId) : Prop :=
  ∃ before event after, trace = before ++ event :: after ∧ link? e event ≠ none ∧
    ∀ other ∈ event :: after, link? f other = none

section LinkedSince

variable {trace : List (Call V K × Reply V)} {event : Call V K × Reply V} {e f : ElementId}

theorem LinkedSince.concat (h : LinkedSince trace e f) (hlink : link? f event = none) :
    LinkedSince (trace ++ [event]) e f := by
  obtain ⟨before, first, after, rfl, hfirst, hafter⟩ := h
  refine ⟨before, first, after ++ [event], by simp, hfirst, fun other hother => ?_⟩
  rw [← List.cons_append] at hother
  rcases List.mem_append.mp hother with hother | hother
  · exact hafter other hother
  · exact List.mem_singleton.mp hother ▸ hlink

theorem linkedSince_concat (trace : List (Call V K × Reply V)) (he : link? e event ≠ none)
    (hf : link? f event = none) : LinkedSince (trace ++ [event]) e f :=
  ⟨trace, event, [], rfl, he, fun _ hother => List.mem_singleton.mp hother ▸ hf⟩

/-- Of two elements one at most was linked last. -/
theorem LinkedSince.asymm (h : LinkedSince trace e f) : ¬LinkedSince trace f e := by
  rintro ⟨before', event', after', heq, hlink', hafter'⟩
  obtain ⟨before, event, after, rfl, hlink, hafter⟩ := h
  -- whichever of the two calls came first, the other one is not before it
  obtain ⟨rest, -, hrest⟩ | ⟨rest, -, hrest⟩ := List.append_eq_append_iff.mp heq
  · exact hlink' (hafter event' (hrest ▸ List.mem_append_right _ List.mem_cons_self))
  · exact hlink (hafter' event (hrest ▸ List.mem_append_right _ List.mem_cons_self))

end LinkedSince

namespace Ledger

variable {l l' : Ledger V K} {c : Call V K} {reply : Reply V} {e : ElementId} {t : TableId}
  {r r' : Roster V K} {key : K} {trace : List (Call V K × Reply V)} {calls : List (Call V K)}
  {replies : List (Reply V)}

/-! ## The order of a table -/

/-- Every element of a table was linked after those that come behind it. -/
def Ordered (trace : List (Call V K × Reply V)) (l : Ledger V K) : Prop :=
  ∀ t r, l.roster? t = some r → r.elements.Pairwise (LinkedSince trace)

/-- A call keeps the order in which elements were linked. -/
theorem Ordered.call (hordered : l.Ordered trace) (hcovered : l.Covered)
    (h : l.call c = some (reply, l')) : l'.Ordered (trace ++ [(c, reply)]) := by
  intro t r' hr'
  -- an element that was in a table is not linked by the call
  have hunlinked : ∀ r, l.roster? t = some r → ∀ f ∈ r.elements, link? f (c, reply) = none := by
    intro r hr f hf
    by_contra hlink
    obtain ⟨link, hlink⟩ := Option.ne_none_iff_exists'.mp hlink
    have hfree := isLinked_of_link? h hlink
    rw [isLinked_iff.mpr ⟨t, r, hr, hf⟩] at hfree
    cases hfree
  have hstays : ∀ r, l.roster? t = some r →
      r.elements.Pairwise (LinkedSince (trace ++ [(c, reply)])) := fun r hr =>
    (hordered t r hr).imp_of_mem fun _ hf hsince => hsince.concat (hunlinked r hr _ hf)
  obtain ⟨r, gone, hr, hthins, -⟩ | ⟨strategy, capacity, -, -, -, rfl⟩ |
    ⟨e, key, r, a, rfl, rfl, hr, rfl, -⟩ := (effect_of_call hcovered h).roster hr'
  · exact (hstays r hr).sublist (hthins.sublist.map Prod.fst)
  · exact List.Pairwise.nil
  · refine List.pairwise_cons.mpr ⟨fun f hf => ?_, hstays r hr⟩
    exact linkedSince_concat trace (by simp [link?]) (hunlinked r hr f hf)

theorem ordered_of_callAll (h : empty.callAll calls = some (replies, l)) :
    l.Ordered (calls.zip replies) := by
  refine callAll_induction (motive := Ordered) ?_ ?_ h
  · intro t r hr
    simp [roster?, empty] at hr
  · intro trace l c reply l' hordered hcovered hcall
    exact hordered.call hcovered hcall

/-! ## What is found -/

def AnswersTo (l : Ledger V K) (r : Roster V K) (key : K) (e : ElementId) : Prop :=
  e ∈ r.elements ∧ ∃ v, l.value? e = some v ∧ r.strategy.equal v key = true

/-- An element that answers to a key is listed with the hash of that key, although it was linked
under another one. -/
theorem Recalls.hash_eq_of_equal {hash : UInt32} {a : Account V} (hrecalls : l.Recalls trace)
    (hcontract : r.strategy.KeepsContract) (hr : l.roster? t = some r)
    (he : (e, hash) ∈ r.entries) (ha : l.account? e = some a)
    (hequal : r.strategy.equal a.value key = true) : hash = r.strategy.hash key := by
  obtain ⟨given, b, -, rfl, hb, hequal'⟩ := hrecalls t r e hash hr he
  obtain rfl := Option.some.inj (ha.symm.trans hb)
  exact (hcontract _ given hequal').trans (hcontract _ key hequal).symm

/-- Comparing hashes hides nothing: the element that is found is the first that answers. -/
theorem find?_eq_of_contract (hrecalls : l.Recalls trace) (hcontract : r.strategy.KeepsContract)
    (hr : l.roster? t = some r) (key : K) :
    l.find? r key = (r.entries.find? fun entry =>
      (l.value? entry.1).any fun v => r.strategy.equal v key).map Prod.fst := by
  unfold find?
  congr 1
  refine List.find?_congr fun ⟨e, hash⟩ he => ?_
  rw [value?, Option.any_map, Bool.and_eq_right_iff_imp]
  intro hany
  obtain ⟨a, ha, hequal⟩ := Option.any_eq_true .. |>.mp hany
  exact beq_iff_eq.mpr (hrecalls.hash_eq_of_equal hcontract hr he ha hequal)

theorem find?_eq_none_iff_of_contract (hrecalls : l.Recalls trace)
    (hcontract : r.strategy.KeepsContract) (hr : l.roster? t = some r) :
    l.find? r key = none ↔ ∀ e, ¬l.AnswersTo r key e := by
  rw [find?_eq_of_contract hrecalls hcontract hr, Option.map_eq_none_iff, List.find?_eq_none]
  constructor
  · rintro hnone e ⟨he, v, hv, hequal⟩
    obtain ⟨hash, he⟩ := Roster.mem_elements_iff.mp he
    exact hnone _ he (by simp [hv, hequal])
  · intro hnone entry hentry hany
    obtain ⟨v, hv, hequal⟩ := Option.any_eq_true .. |>.mp hany
    exact hnone entry.1 ⟨List.mem_map_of_mem hentry, v, hv, hequal⟩

/-- Of the elements that answer to a key the one that was linked last is found. -/
theorem find?_eq_some_iff_of_contract (hrecalls : l.Recalls trace) (hordered : l.Ordered trace)
    (hcontract : r.strategy.KeepsContract) (hr : l.roster? t = some r) :
    l.find? r key = some e ↔
      l.AnswersTo r key e ∧ ∀ f, l.AnswersTo r key f → f ≠ e → LinkedSince trace e f := by
  have hfound : ∀ e, l.find? r key = some e →
      l.AnswersTo r key e ∧ ∀ f, l.AnswersTo r key f → f ≠ e → LinkedSince trace e f := by
    intro e hfind
    rw [find?_eq_of_contract hrecalls hcontract hr] at hfind
    obtain ⟨entry, hentry, rfl⟩ := Option.map_eq_some_iff.mp hfind
    obtain ⟨hany, before, after, hentries, hbefore⟩ := List.find?_eq_some_iff_append.mp hentry
    obtain ⟨v, hv, hequal⟩ := Option.any_eq_true .. |>.mp hany
    have helements : r.elements = before.map Prod.fst ++ entry.1 :: after.map Prod.fst := by
      rw [Roster.elements, hentries, List.map_append, List.map_cons]
    refine ⟨⟨by simp [helements], v, hv, hequal⟩, ?_⟩
    rintro f ⟨hf, w, hw, hsame⟩ hne
    have hpairwise := hordered t r hr
    rw [helements, List.pairwise_append, List.pairwise_cons] at hpairwise
    rw [helements, List.mem_append, List.mem_cons] at hf
    obtain hf | rfl | hf := hf
    · -- nothing in front of the first element that answers does so
      obtain ⟨other, hother, rfl⟩ := List.mem_map.mp hf
      simpa [hw, hsame] using hbefore other hother
    · exact absurd rfl hne
    · exact hpairwise.2.1.1 f hf
  refine ⟨hfound e, ?_⟩
  rintro ⟨he, hlast⟩
  cases hfind : l.find? r key with
  | none => exact absurd he ((find?_eq_none_iff_of_contract hrecalls hcontract hr).mp hfind e)
  | some g =>
    obtain ⟨hg, hlast'⟩ := hfound g hfind
    by_contra hne
    have hge : g ≠ e := fun heq => hne (congrArg some heq)
    exact (hlast g hg hge).asymm (hlast' e he (Ne.symm hge))

end Ledger

namespace Store

variable {s : Store V K} {l : Ledger V K} {t : TableId} {r : Roster V K} {table : Table V K}
  {trace : List (Call V K × Reply V)}

theorem Agrees.answersTo_iff (hs : s.Agrees l) (hr : l.roster? t = some r) {key : K}
    {e : ElementId} : s.AnswersTo t r.strategy key e ↔ l.AnswersTo r key e := by
  rw [Store.AnswersTo, Ledger.AnswersTo, hs.inTable_iff hr, hs.value?_eq]

/-- Under a strategy that keeps the contract, hashes need not be mentioned in what is found. -/
theorem Agrees.exists_lookup_iff (hs : s.Agrees l) (hidle : s.locks = [])
    (hr : l.roster? t = some r) (key : K) :
    ∃ result s', s.call (.lookup t key) = .ok (.found result, s') ∧
      (∀ e, result = .ok e ↔ l.find? r key = some e) ∧
      (result = .error .notFound ↔ l.find? r key = none) := by
  obtain ⟨result, s', hok, hresult⟩ := hs.exists_lookup hidle hr key
  refine ⟨result, s', hok, hresult, ?_⟩
  obtain ⟨l', hcall, -⟩ := hs.exists_ledger_call (c := .lookup t key) hidle
    (hs.exists_table_iff.mpr ⟨r, hr⟩) hok
  obtain ⟨⟨result', l₁⟩, hlookup, heq⟩ := Option.bind_eq_some_iff.mp hcall
  obtain rfl := Reply.found.inj (Prod.mk.inj (Option.some.inj heq)).1
  obtain ⟨r', hr', ⟨hnone, rfl, -⟩ | ⟨e, hsome, rfl, -⟩⟩ := Ledger.lookup_cases hlookup
  · simp [Option.some.inj (hr.symm.trans hr'), hnone]
  · simp [Option.some.inj (hr.symm.trans hr'), hsome]

/-- An element is refused as a duplicate if anything in the table answers to the key. -/
theorem Agrees.exists_hash_iff (hs : s.Agrees l) (hidle : s.locks = [])
    (hr : l.roster? t = some r) {e : ElementId} {v : V} {key : K} (hheld : 0 < s.references e)
    (hv : s.value? e = some v) (hfree : ¬s.Linked e) (hequal : r.strategy.equal v key = true) :
    ∃ result s', s.call (.hash t e key) = .ok (.result result, s') ∧
      (result = .error .duplicateKey ↔ l.find? r key ≠ none) ∧
      (result = .ok () ↔ l.find? r key = none) := by
  obtain ⟨result, s', hok, hresult⟩ := hs.exists_hash hidle hr hv hheld hfree hequal
  refine ⟨result, s', hok, ?_, hresult⟩
  obtain ⟨l', hcall, -⟩ := hs.exists_ledger_call (c := .hash t e key) hidle
    ⟨hs.exists_table_iff.mpr ⟨r, hr⟩, hheld⟩ hok
  obtain ⟨⟨result', l₁⟩, hhash, heq⟩ := Option.bind_eq_some_iff.mp hcall
  obtain rfl := Reply.result.inj (Prod.mk.inj (Option.some.inj heq)).1
  obtain ⟨r', a, hr', ha, hcases⟩ := Ledger.hash_cases hhash
  obtain rfl := Option.some.inj (hr.symm.trans hr')
  obtain rfl := Option.some.inj (hv.symm.trans (hs.value?_of_held? ha))
  have hunlinked : l.isLinked e = false := by simpa [hs.linked_iff] using hfree
  obtain ⟨hfalse, -⟩ | ⟨-, hfalse, -⟩ | ⟨-, -, ⟨f, hf⟩, rfl, -⟩ | ⟨-, -, hf, rfl, -⟩ := hcases
  · exact absurd hequal (by simp [hfalse])
  · exact absurd hfalse (by simp [hunlinked])
  · simp [hf]
  · simp [hf]

/-- Elements are found as if all of a table were looked through, with no regard to hashes. -/
structure FindsAll (s : Store V K) (trace : List (Call V K × Reply V)) (t : TableId)
    (strategy : Strategy V K) : Prop where
  lookup : ∀ key, ∃ result s', s.call (.lookup t key) = .ok (.found result, s') ∧
    (∀ e, result = .ok e ↔ s.AnswersTo t strategy key e ∧
      ∀ f, s.AnswersTo t strategy key f → f ≠ e → LinkedSince trace e f) ∧
    (result = .error .notFound ↔ ∀ e, ¬s.AnswersTo t strategy key e)
  hash : ∀ e v key, 0 < s.references e → s.value? e = some v → ¬s.Linked e →
    strategy.equal v key = true →
    ∃ result s', s.call (.hash t e key) = .ok (.result result, s') ∧
      (result = .error .duplicateKey ↔ ∃ f, s.AnswersTo t strategy key f) ∧
      (result = .ok () ↔ ∀ f, ¬s.AnswersTo t strategy key f)

/-- Under a strategy that keeps its contract nothing that answers to a key is overlooked. -/
theorem Runs.answers_by_contract (h : Runs trace s) (ht : s.table? t = some table)
    (hcontract : table.strategy.KeepsContract) : s.FindsAll trace t table.strategy := by
  obtain ⟨l, hcalls, hs, hidle⟩ := h.exists_ledger
  obtain ⟨r, hr, htable⟩ := hs.exists_roster ht
  rw [htable.strategy] at hcontract ⊢
  have hrecalls := Ledger.recalls_of_callAll hcalls
  have hordered := Ledger.ordered_of_callAll hcalls
  simp only [List.zip_map', Prod.mk.eta, List.map_id_fun', id_eq] at hrecalls hordered
  have hnone : ∀ {key}, l.find? r key = none ↔ ∀ e, ¬s.AnswersTo t r.strategy key e := by
    intro key
    simp only [hs.answersTo_iff hr]
    exact Ledger.find?_eq_none_iff_of_contract hrecalls hcontract hr
  constructor
  · intro key
    obtain ⟨result, s', hok, hfound, hmissed⟩ := hs.exists_lookup_iff hidle hr key
    refine ⟨result, s', hok, fun e => ?_, hmissed.trans hnone⟩
    simp only [hs.answersTo_iff hr]
    rw [hfound, Ledger.find?_eq_some_iff_of_contract hrecalls hordered hcontract hr]
  · intro e v key hheld hv hfree hequal
    obtain ⟨result, s', hok, hduplicate, hlinked⟩ :=
      hs.exists_hash_iff hidle hr hheld hv hfree hequal
    refine ⟨result, s', hok, ?_, hlinked.trans hnone⟩
    rw [hduplicate, ne_eq, hnone, not_forall_not]

/-- A strategy under which a number answers to itself and to the smaller ones of its ten. -/
def atMost : Strategy Nat Nat where
  key := id
  hash key := UInt32.ofNat (key / 10)
  equal v key := decide (key / 10 = v / 10 ∧ key ≤ v)
  release := .drop
  shown := .plain ""

theorem keepsContract_atMost : atMost.KeepsContract := by
  intro v key hequal
  exact congrArg UInt32.ofNat (of_decide_eq_true hequal).1

/-- Calls that make a table and link two elements into it, both of which answer to 16. -/
def climbingCalls : List (Call Nat Nat) :=
  [.createTable atMost .least, .create 17, .create 18, .hash 0 0 17, .hash 0 1 18]

theorem findsAll_of_climbing : ∃ (trace : List (Call Nat Nat × Reply Nat)) (s : Store Nat Nat)
    (table : Table Nat Nat), Runs trace s ∧ s.table? 0 = some table ∧ table.strategy = atMost ∧
      table.strategy.KeepsContract ∧ s.FindsAll trace 0 atMost ∧
      ∃ s', s.call (.lookup 0 16) = .ok (.found (.ok 1), s') := by
  obtain ⟨s', h'⟩ := exists_runs (climbingCalls ++ [.lookup 0 16]) [.made 0, .created 0, .created 1,
    .result (.ok ()), .result (.ok ()), .found (.ok 1)] rfl
  change Runs (climbingCalls.zip [.made 0, .created 0, .created 1, .result (.ok ()),
    .result (.ok ())] ++ [(.lookup 0 16, .found (.ok 1))]) s' at h'
  obtain ⟨s, h, -, hfound⟩ := h'.exists_last
  obtain ⟨table, htable, hsame, -⟩ := h.lists.table 0 _ rfl
  have hstrategy : table.strategy = atMost := hsame
  have hcontract : table.strategy.KeepsContract := hstrategy ▸ keepsContract_atMost
  have hall := Runs.answers_by_contract h htable hcontract
  exact ⟨_, s, table, h, htable, hstrategy, hcontract, hstrategy ▸ hall, s', hfound⟩

end Store

end HashIndex
