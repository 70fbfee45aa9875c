import HashIndex.Proofs.Agreement.WellFormed
import HashIndex.Proofs.Call.Capacity
import HashIndex.Proofs.Call.Run
import HashIndex.Proofs.Call.Trace
import Mathlib.Logic.Function.Basic

/-!
# Tables are flat lists

Whatever functions a strategy consists of, a table is one list of its elements, latest first, each
with the hash of the key it was linked under. The chain of a bucket is the part of the list that
falls into the bucket, and how the list is cut into buckets has no influence on what is found in it.

## Main definitions

* `rostersAfter`: the lists that a run makes of the tables.
* `Store.Lists`: what the tables of a store have to do with lists.
* `Store.Answers`: how lists say that calls are answered.

## Main statements

* `Store.Runs.flatList`: tables are lists after any run, every call is answered as the lists say,
  and runs that differ in the capacities of their tables are answered alike.
-/

namespace HashIndex

variable {V K : Type}

/-- Calls whose answers can be told from what is there: nothing is made that would get a name, and
nothing is visited. -/
def Call.isDetermined : Call V K → Bool
  | .create _ | .createTable _ _ | .walk _ _ _ _ | .survey _ _ => false
  | _ => true

/-- Visits go to the elements of a list in their order, and show their values and the hashes that
the list has. -/
structure Shows (value? : ElementId → Option V) (entries : List (ElementId × UInt32))
    (visits : List (Visit V)) : Prop where
  entries : visits.map (fun v => (v.element, v.hash)) = entries
  value : ∀ v ∈ visits, value? v.element = some v.value

/-- What a call makes of the lists of all tables: a table that is made is an empty list, an element
that is linked comes first, and those that are taken out are erased. -/
def noted (lists : TableId → Option (Roster V K)) :
    Call V K × Reply V → TableId → Option (Roster V K)
  | (.createTable strategy capacity, .made t) =>
    Function.update lists t (some ⟨strategy, capacity, []⟩)
  | (.freeTable t, _) => Function.update lists t none
  | (.hash t e key, .result (.ok ())) =>
    Function.update lists t ((lists t).map fun r => r.insert e key)
  | (.unhash t e, .result (.ok ())) =>
    Function.update lists t ((lists t).map fun r => r.without [e])
  | (.walk t _ _ _, .walked _ released) =>
    Function.update lists t ((lists t).map fun r => r.without released)
  | (.drain t _, .released released) =>
    Function.update lists t ((lists t).map fun r => r.without released)
  | _ => lists

def rostersAfter (trace : List (Call V K × Reply V)) : TableId → Option (Roster V K) :=
  trace.foldl noted fun _ => none

namespace Store

/-- The counter of a table is the length of its list, and the chain of a bucket has those elements
of the list whose hashes select the bucket, in the order of the list. An element is in one list at
most, and only once. -/
structure Lists (s : Store V K) (lists : TableId → Option (Roster V K)) : Prop where
  table : ∀ t r, lists t = some r → ∃ table, s.table? t = some table ∧
    table.strategy = r.strategy ∧ table.capacity = r.capacity ∧
    table.entries = r.entries.length
  chain : ∀ t r i, lists t = some r → i < r.capacity.size →
    ∃ c elements, s.chain t i = .ok c ∧ c.elements s.heap = .ok elements ∧
      elements.map (fun (e, x) => (e, x.hash)) =
        r.entries.filter fun entry => (entry.2.toUInt64 &&& r.capacity.mask).toNat = i
  gone : ∀ t, lists t = none → s.table? t = none
  nodup : ∀ t r, lists t = some r → r.elements.Nodup
  unique : ∀ t u r r' e, lists t = some r → lists u = some r' → e ∈ r.elements →
    e ∈ r'.elements → t = u

def value? (s : Store V K) (e : ElementId) : Option V := (s.heap.get? e).map Element.value

/-- No element of a list that has the hash of a key answers to the key. -/
def NoneAnswers (s : Store V K) (strategy : Strategy V K) (key : K)
    (entries : List (ElementId × UInt32)) : Prop :=
  ∀ e v, (e, strategy.hash key) ∈ entries → s.value? e = some v → strategy.equal v key = false

/-- How calls are answered, given the lists of all tables. -/
inductive Answers (s : Store V K) (lists : TableId → Option (Roster V K)) :
    Call V K → Reply V → Prop
  | create (value : V) {e : ElementId} (hnew : s.heap.get? e = none) :
    Answers s lists (.create value) (.created e)
  | hold (e : ElementId) : Answers s lists (.hold e) .done
  | put {e : ElementId} {x : Element V} (hx : s.heap.get? e = some x) :
    Answers s lists (.put e)
      (.destroyed (if x.count = 1 then some (x.value, x.release) else none))
  | createTable (strategy : Strategy V K) (capacity : Capacity) {t : TableId}
    (hnew : lists t = none) : Answers s lists (.createTable strategy capacity) (.made t)
  | freeTable (t : TableId) : Answers s lists (.freeTable t) .done
  | keyMismatch {t : TableId} {e : ElementId} {key : K} {r : Roster V K} {v : V}
    (hr : lists t = some r) (hv : s.value? e = some v)
    (hequal : r.strategy.equal v key = false) :
    Answers s lists (.hash t e key) (.result (.error .keyMismatch))
  | alreadyHashed {t u : TableId} {e : ElementId} {key : K} {r r' : Roster V K} {v : V}
    (hr : lists t = some r) (hv : s.value? e = some v)
    (hequal : r.strategy.equal v key = true) (hu : lists u = some r')
    (he : e ∈ r'.elements) : Answers s lists (.hash t e key) (.result (.error .alreadyHashed))
  | duplicateKey {t : TableId} {e f : ElementId} {key : K} {r : Roster V K} {v w : V}
    (hr : lists t = some r) (hv : s.value? e = some v)
    (hequal : r.strategy.equal v key = true)
    (hfree : ∀ u r', lists u = some r' → e ∉ r'.elements)
    (hf : (f, r.strategy.hash key) ∈ r.entries) (hw : s.value? f = some w)
    (hsame : r.strategy.equal w key = true) :
    Answers s lists (.hash t e key) (.result (.error .duplicateKey))
  | hashed {t : TableId} {e : ElementId} {key : K} {r : Roster V K} {v : V}
    (hr : lists t = some r) (hv : s.value? e = some v)
    (hequal : r.strategy.equal v key = true)
    (hfree : ∀ u r', lists u = some r' → e ∉ r'.elements)
    (hnone : s.NoneAnswers r.strategy key r.entries) :
    Answers s lists (.hash t e key) (.result (.ok ()))
  | notFound {t : TableId} {key : K} {r : Roster V K} (hr : lists t = some r)
    (hnone : s.NoneAnswers r.strategy key r.entries) :
    Answers s lists (.lookup t key) (.found (.error .notFound))
  | found {t : TableId} {e : ElementId} {key : K} {r : Roster V K} {v : V}
    {before after : List (ElementId × UInt32)} (hr : lists t = some r)
    (hentries : r.entries = before ++ (e, r.strategy.hash key) :: after)
    (hv : s.value? e = some v) (hequal : r.strategy.equal v key = true)
    (hnone : s.NoneAnswers r.strategy key before) :
    Answers s lists (.lookup t key) (.found (.ok e))
  | unhashed {t : TableId} {e : ElementId} {r : Roster V K} (hr : lists t = some r)
    (he : e ∈ r.elements) : Answers s lists (.unhash t e) (.result (.ok ()))
  | notHashed {t : TableId} {e : ElementId} {r : Roster V K} (hr : lists t = some r)
    (he : e ∉ r.elements) : Answers s lists (.unhash t e) (.result (.error .notHashed))
  | count {t : TableId} {r : Roster V K} (hr : lists t = some r) :
    Answers s lists (.count t) (.number r.entries.length)
  | lengths {t : TableId} {r : Roster V K} (hr : lists t = some r) :
    Answers s lists (.lengths t)
      (.lengths ((List.range r.capacity.size).map fun i => (r.bucket i).length))
  | walked {t : TableId} {i number : Nat} {choose : Nat → V → Choice} {r : Roster V K}
    {visits : List (Visit V)} (hr : lists t = some r) (hvisits : Shows s.value? (r.bucket i) visits)
    (hchoice : ∀ v ∈ visits, v.choice = choose v.number v.value) :
    Answers s lists (.walk t i number choose) (.walked visits (Ledger.takenOut visits))
  | surveyed {t : TableId} {choose : Nat → V → Bool} {r : Roster V K}
    {visits : List (List (Visit V))} (hr : lists t = some r)
    (hvisits : List.Forall₂ (Shows s.value?) ((List.range r.capacity.size).map r.bucket) visits)
    (hchoice : ∀ v ∈ visits.flatten, v.choice = ⟨choose v.number v.value, false⟩) :
    Answers s lists (.survey t choose) (.surveyed visits)
  | drained {t : TableId} {i : Nat} {r : Roster V K} (hr : lists t = some r) :
    Answers s lists (.drain t i) (.released ((r.bucket i).map Prod.fst))

/-- The entry that is found is determined, since no entry before it answers. -/
theorem found_unique {s : Store V K} {strategy : Strategy V K} {key : K} {e f : ElementId}
    {v w : V} {before after before' after' : List (ElementId × UInt32)}
    (hentries : before ++ (e, strategy.hash key) :: after =
      before' ++ (f, strategy.hash key) :: after')
    (hv : s.value? e = some v) (hequal : strategy.equal v key = true)
    (hnone : s.NoneAnswers strategy key before) (hw : s.value? f = some w)
    (hsame : strategy.equal w key = true) (hnone' : s.NoneAnswers strategy key before') :
    e = f := by
  obtain ⟨between, rfl, hrest⟩ | ⟨between, rfl, hrest⟩ := List.append_eq_append_iff.mp hentries
  · cases between with
    | nil => grind
    | cons entry between =>
      obtain rfl := (List.cons.inj hrest).1
      simp [hnone' e v (by simp) hv] at hequal
  · cases between with
    | nil => grind
    | cons entry between =>
      obtain rfl := (List.cons.inj hrest).1
      simp [hnone f w (by simp) hw] at hsame

/-- Lists leave no choice of what to answer. -/
theorem Answers.reply_eq {s : Store V K} {lists : TableId → Option (Roster V K)} {c : Call V K}
    {reply reply' : Reply V} (h : s.Answers lists c reply) (h' : s.Answers lists c reply')
    (hc : c.isDetermined = true) : reply' = reply := by
  cases h with
  | create | createTable | walked | surveyed => cases hc
  | hold | freeTable =>
    cases h'
    rfl
  | put =>
    cases h'
    grind
  | keyMismatch | alreadyHashed | duplicateKey | hashed =>
    cases h' <;> grind [NoneAnswers]
  | notFound =>
    cases h' <;> grind [NoneAnswers]
  | found hr hentries hv hequal hnone =>
    cases h' with
    | notFound => grind [NoneAnswers]
    | found hr' hentries' hv' hequal' hnone' =>
      obtain rfl := Option.some.inj (hr.symm.trans hr')
      rw [found_unique (hentries.symm.trans hentries') hv hequal hnone hv' hequal' hnone']
  | unhashed | notHashed | count | lengths | drained => cases h' <;> grind

end Store

namespace Ledger

variable {l l' : Ledger V K} {c : Call V K} {reply : Reply V} {e : ElementId} {t : TableId}
  {r : Roster V K} {es : List ElementId} {visits : List (Visit V)} {number : Nat}

/-! ## What calls make of the lists -/

theorem roster?_treat (hr : l.roster? t = some r) (e : ElementId) (choice : Choice)
    (u : TableId) : (l.treat t e choice).roster? u =
      if u = t then some (r.without (if choice.unhash then [e] else [])) else l.roster? u := by
  unfold treat
  split
  · rw [roster?_detach, roster?_lendIf, roster?_lendIf, hr, Option.map_some,
      Roster.remove_eq_without]
  · rw [roster?_lendIf, Roster.without_nil]
    split <;> simp_all

theorem roster?_of_visit {choose : Nat → V → Choice} {entries : List (ElementId × UInt32)}
    (hr : l.roster? t = some r) (h : visit t choose entries number l = some (visits, l'))
    (u : TableId) :
    l'.roster? u = if u = t then some (r.without (takenOut visits)) else l.roster? u := by
  induction entries generalizing l r number visits with
  | nil =>
    obtain ⟨rfl, rfl⟩ := by simpa [visit] using h
    split <;> simp_all [takenOut]
  | cons entry entries ih =>
    obtain ⟨e, hash⟩ := entry
    simp only [visit, Option.bind_eq_bind, Option.bind_eq_some_iff, Option.pure_def,
      Option.some.injEq, Prod.mk.injEq, Prod.exists] at h
    obtain ⟨a, -, visits, l', hvisits, rfl, rfl⟩ := h
    have htreat := roster?_treat hr e (choose number a.value)
    rw [ih ((htreat t).trans (if_pos rfl)) hvisits, htreat, ← Roster.without_append,
      takenOut_cons]
    split <;> rfl

theorem roster?_of_visit_holding {choose : Nat → V → Bool}
    {entries : List (ElementId × UInt32)} (hr : l.roster? t = some r)
    (h : visit t (fun n v => ⟨choose n v, false⟩) entries number l = some (visits, l'))
    (u : TableId) : l'.roster? u = l.roster? u := by
  have hnone : takenOut visits = [] :=
    takenOut_eq_nil fun v hv => by rw [choice_of_visit h v hv]
  rw [roster?_of_visit hr h, hnone, Roster.without_nil]
  split <;> simp_all

theorem roster?_of_survey {choose : Nat → V → Bool} {buckets : List Nat}
    {visits : List (List (Visit V))}
    (h : surveyBuckets t choose buckets number l = some (visits, l')) (u : TableId) :
    l'.roster? u = l.roster? u := by
  induction buckets generalizing l number visits with
  | nil =>
    obtain ⟨-, rfl⟩ := by simpa [surveyBuckets] using h
    rfl
  | cons i buckets ih =>
    simp only [surveyBuckets, Option.bind_eq_bind, Option.bind_eq_some_iff, Option.pure_def,
      Option.some.injEq, Prod.mk.injEq, Prod.exists, walk_eq_some_iff] at h
    obtain ⟨first, l₁, ⟨r, hr, -, hfirst⟩, rest, l₂, hrest, rfl, rfl⟩ := h
    rw [ih hrest, roster?_of_visit_holding hr hfirst]

/-- A call makes of the lists what is noted. -/
theorem roster?_of_call (h : l.call c = some (reply, l')) :
    l'.roster? = noted l.roster? (c, reply) := by
  funext u
  cases c <;> simp only [call, Option.bind_eq_bind, Option.bind_eq_some_iff, Option.pure_def,
    Option.some.injEq, Prod.mk.injEq, Prod.exists] at h
  case create value =>
    obtain ⟨rfl, rfl⟩ := h
    rfl
  case hold e =>
    obtain ⟨l₁, hhold, rfl, rfl⟩ := h
    obtain ⟨a, -, hhold⟩ := Option.bind_eq_some_iff.mp hhold
    obtain rfl := Option.some.inj hhold
    rfl
  case put e =>
    obtain ⟨destroyed, l₁, hput, rfl, rfl⟩ := h
    exact (put_cases hput).1 u
  case createTable strategy capacity =>
    obtain ⟨rfl, rfl⟩ := h
    rw [(l.roster?_createTable strategy capacity).2, noted, Function.update_apply]
  case freeTable t =>
    obtain ⟨l₁, hfree, rfl, rfl⟩ := h
    obtain ⟨r, -, hfree⟩ := Option.bind_eq_some_iff.mp hfree
    split at hfree
    · cases hfree
    · obtain rfl := Option.some.inj hfree
      rw [roster?_freeTable, noted, Function.update_apply]
  case hash t e key =>
    obtain ⟨result, l₁, hhash, rfl, rfl⟩ := h
    obtain ⟨r, a, hr, -, ⟨-, rfl, rfl⟩ | ⟨-, -, rfl, rfl⟩ | ⟨-, -, -, rfl, rfl⟩ |
      ⟨-, -, -, rfl, rfl⟩⟩ := hash_cases hhash
    · rfl
    · rfl
    · rfl
    · rw [roster?_updateAccount, roster?_updateRoster, noted, Function.update_apply]
  case unhash t e =>
    obtain ⟨result, l₁, hunhash, rfl, rfl⟩ := h
    obtain ⟨r, a, hr, -, ⟨-, rfl, rfl⟩ | ⟨-, rfl, rfl⟩⟩ := unhash_cases hunhash
    · rw [roster?_detach, noted, Function.update_apply]
      simp only [Roster.remove_eq_without]
    · rfl
  case lookup t key =>
    obtain ⟨result, l₁, hlookup, rfl, rfl⟩ := h
    obtain ⟨r, -, ⟨-, rfl, rfl⟩ | ⟨e, -, rfl, rfl⟩⟩ := lookup_cases hlookup <;> rfl
  case count t =>
    obtain ⟨r, -, rfl, rfl⟩ := h
    rfl
  case lengths t =>
    obtain ⟨lengths, -, rfl, rfl⟩ := h
    rfl
  case walk t i number choose =>
    obtain ⟨visits, l₁, hwalk, rfl, rfl⟩ := h
    obtain ⟨r, hr, -, hvisit⟩ := walk_eq_some_iff.mp hwalk
    rw [roster?_of_visit hr hvisit, noted, Function.update_apply, hr, Option.map_some]
  case survey t choose =>
    obtain ⟨visits, l₁, hsurvey, rfl, rfl⟩ := h
    obtain ⟨r, -, hsurvey⟩ := Option.bind_eq_some_iff.mp hsurvey
    exact roster?_of_survey hsurvey u
  case drain t i =>
    obtain ⟨released, l₁, hdrain, rfl, rfl⟩ := h
    obtain ⟨r, hr, -, rfl, rfl⟩ := drain_eq_some_iff.mp hdrain
    rw [roster?_foldl_detach hr, noted, Function.update_apply, hr, Option.map_some]

/-! ## What visits show -/

def value? (l : Ledger V K) (e : ElementId) : Option V := (l.account? e).map Account.value

theorem Yields.value?_eq (h : l.Yields es l') : l'.value? = l.value? := by
  funext e
  rw [value?, h.account?_eq, Option.map_map]
  rfl

/-- Visits show the entries that they go to. -/
theorem shows_of_visit {choose : Nat → V → Choice} {entries : List (ElementId × UInt32)}
    (h : visit t choose entries number l = some (visits, l')) :
    Shows l.value? entries visits := by
  induction entries generalizing l number visits with
  | nil =>
    obtain ⟨rfl, rfl⟩ := by simpa [visit] using h
    exact ⟨rfl, by simp⟩
  | cons entry entries ih =>
    obtain ⟨e, hash⟩ := entry
    simp only [visit, Option.bind_eq_bind, Option.bind_eq_some_iff, Option.pure_def,
      Option.some.injEq, Prod.mk.injEq, Prod.exists] at h
    obtain ⟨a, ha, visits, l', hvisits, rfl, rfl⟩ := h
    obtain ⟨es, hes, -⟩ := yields_treat t ha (choose number a.value)
    have hrest := ih hvisits
    rw [hes.value?_eq] at hrest
    refine ⟨by rw [List.map_cons, hrest.entries], fun v hv => ?_⟩
    rcases List.mem_cons.mp hv with rfl | hv
    · simp [value?, ha]
    · exact hrest.value v hv

theorem shows_of_survey {choose : Nat → V → Bool} {buckets : List Nat}
    {visits : List (List (Visit V))} (hr : l.roster? t = some r)
    (h : surveyBuckets t choose buckets number l = some (visits, l')) :
    List.Forall₂ (Shows l.value?) (buckets.map r.bucket) visits := by
  induction buckets generalizing l number visits with
  | nil =>
    obtain ⟨rfl, rfl⟩ := by simpa [surveyBuckets] using h
    exact .nil
  | cons i buckets ih =>
    simp only [surveyBuckets, Option.bind_eq_bind, Option.bind_eq_some_iff, Option.pure_def,
      Option.some.injEq, Prod.mk.injEq, Prod.exists, walk_eq_some_iff] at h
    obtain ⟨first, l₁, ⟨r₁, hr₁, -, hfirst⟩, rest, l₂, hrest, rfl, rfl⟩ := h
    obtain rfl := Option.some.inj (hr.symm.trans hr₁)
    obtain ⟨es, hes, -⟩ := yields_of_visit hfirst
    have hrest := ih ((roster?_of_visit_holding hr hfirst t).trans hr) hrest
    rw [hes.value?_eq] at hrest
    exact .cons (shows_of_visit hfirst) hrest

end Ledger

namespace Store

variable {s : Store V K} {l l' : Ledger V K} {c : Call V K} {reply reply' : Reply V}
  {e : ElementId} {t : TableId} {r : Roster V K} {key : K}
  {trace : List (Call V K × Reply V)}

/-! ## Stores that agree with a ledger -/

theorem Agrees.value?_eq (hs : s.Agrees l) : s.value? = l.value? := by
  funext e
  have hrel := hs.element e
  unfold Store.value? Ledger.value?
  generalize s.heap.get? e = x? at hrel ⊢
  generalize l.account? e = a? at hrel ⊢
  cases hrel with
  | none => rfl
  | some hxa => exact congrArg some hxa.value

/-- A store that agrees with a ledger has the lists of its rosters. -/
theorem Agrees.lists (hs : s.Agrees l) : s.Lists l.roster? := by
  constructor
  · intro t r hr
    obtain ⟨table, ht, htable⟩ := hs.exists_table hr
    exact ⟨table, ht, htable.strategy, htable.capacity, htable.entries⟩
  · intro t r i hr hi
    exact hs.elements_eq hr hi
  · intro t hr
    have hrel := hs.table t
    rw [hr] at hrel
    cases ht : s.table? t <;> simp_all
  · exact hs.nodup
  · intro t u r r' e hr hr' he he'
    obtain ⟨hash, he⟩ := Roster.mem_elements_iff.mp he
    obtain ⟨hash', he'⟩ := Roster.mem_elements_iff.mp he'
    obtain ⟨x, hx, howner, -⟩ := hs.listed t r hr e hash he
    obtain ⟨y, hy, howner', -⟩ := hs.listed u r' hr' e hash' he'
    obtain rfl := Option.some.inj (hx.symm.trans hy)
    simpa [howner] using howner'

theorem Agrees.noneAnswers (hs : s.Agrees l) {entries : List (ElementId × UInt32)}
    (hnone : ∀ entry ∈ entries, (entry.2 == r.strategy.hash key &&
      (l.account? entry.1).any fun a => r.strategy.equal a.value key) = false) :
    s.NoneAnswers r.strategy key entries := by
  intro e v he hv
  rw [hs.value?_eq, Ledger.value?, Option.map_eq_some_iff] at hv
  obtain ⟨a, ha, rfl⟩ := hv
  simpa [ha] using hnone _ he

theorem Agrees.noneAnswers_of_find? (hs : s.Agrees l) (hfind : l.find? r key = none) :
    s.NoneAnswers r.strategy key r.entries := by
  rw [Ledger.find?, Option.map_eq_none_iff, List.find?_eq_none] at hfind
  exact hs.noneAnswers fun entry hentry => by simpa using hfind entry hentry

theorem Agrees.exists_of_find? (hs : s.Agrees l) (hfind : l.find? r key = some e) :
    ∃ before after v, r.entries = before ++ (e, r.strategy.hash key) :: after ∧
      s.value? e = some v ∧ r.strategy.equal v key = true ∧
      s.NoneAnswers r.strategy key before := by
  obtain ⟨⟨e, hash⟩, hentry, rfl⟩ := Option.map_eq_some_iff.mp hfind
  obtain ⟨htest, before, after, hentries, hbefore⟩ := List.find?_eq_some_iff_append.mp hentry
  simp only [Bool.and_eq_true, beq_iff_eq, Option.any_eq_true] at htest
  obtain ⟨rfl, a, ha, hequal⟩ := htest
  refine ⟨before, after, a.value, hentries, ?_, hequal, hs.noneAnswers fun entry hentry => ?_⟩
  · simp [hs.value?_eq, Ledger.value?, ha]
  · simpa only [Bool.not_eq_true'] using hbefore entry hentry

theorem Agrees.value?_of_held? {a : Account V} (hs : s.Agrees l) (ha : l.held? e = some a) :
    s.value? e = some a.value := by
  simp [hs.value?_eq, Ledger.value?, (Ledger.held?_eq_some_iff.mp ha).1]

/-- What the ledger answers is what the lists say, case by case. -/
theorem Agrees.answers (hs : s.Agrees l) (h : l.call c = some (reply, l')) :
    s.Answers l.roster? c reply := by
  cases c <;> simp only [Ledger.call, Option.bind_eq_bind, Option.bind_eq_some_iff,
    Option.pure_def, Option.some.injEq, Prod.mk.injEq, Prod.exists] at h
  case create value =>
    obtain ⟨rfl, rfl⟩ := h
    refine .create value ?_
    have hrel := hs.element l.accounts.length
    rw [Ledger.account?_length] at hrel
    cases hx : s.heap.get? l.accounts.length <;> simp_all
  case hold e =>
    obtain ⟨l₁, -, rfl, rfl⟩ := h
    exact .hold e
  case put e =>
    obtain ⟨destroyed, l₁, hput, rfl, rfl⟩ := h
    obtain ⟨-, a, ha, hpos, hcases⟩ := Ledger.put_cases hput
    obtain ⟨x, hx, hxa⟩ := hs.exists_element ha
    have hlast : x.count = 1 ↔ a.references = 1 ∧ l.isLinked e = false := by
      rw [hxa.count, hs.isLinked_eq hx]
      cases x.isHashed <;> simp
      omega
    have hanswers : s.Answers l.roster? (.put e) _ := .put hx
    obtain ⟨hone, hlinked, rfl, -⟩ | ⟨hmore, rfl, -⟩ := hcases
    · rw [if_pos (hlast.mpr ⟨hone, hlinked⟩), hxa.value, hxa.release] at hanswers
      exact hanswers
    · rw [if_neg (mt hlast.mp hmore)] at hanswers
      exact hanswers
  case createTable strategy capacity =>
    obtain ⟨rfl, rfl⟩ := h
    exact .createTable strategy capacity (l.roster?_createTable strategy capacity).1
  case freeTable t =>
    obtain ⟨l₁, -, rfl, rfl⟩ := h
    exact .freeTable t
  case hash t e key =>
    obtain ⟨result, l₁, hhash, rfl, rfl⟩ := h
    obtain ⟨r, a, hr, ha, hcases⟩ := Ledger.hash_cases hhash
    have hv := hs.value?_of_held? ha
    have hfree : l.isLinked e = false → ∀ u r', l.roster? u = some r' → e ∉ r'.elements := by
      intro hlinked u r' hr' he
      rw [Ledger.isLinked_iff.mpr ⟨u, r', hr', he⟩] at hlinked
      cases hlinked
    obtain ⟨hequal, rfl, -⟩ | ⟨hequal, hlinked, rfl, -⟩ |
      ⟨hequal, hlinked, ⟨f, hfind⟩, rfl, -⟩ | ⟨hequal, hlinked, hfind, rfl, -⟩ := hcases
    · exact .keyMismatch hr hv hequal
    · obtain ⟨u, r', hr', he⟩ := Ledger.isLinked_iff.mp hlinked
      exact .alreadyHashed hr hv hequal hr' he
    · obtain ⟨before, after, w, hentries, hw, hsame, -⟩ := hs.exists_of_find? hfind
      exact .duplicateKey hr hv hequal (hfree hlinked) (by simp [hentries]) hw hsame
    · exact .hashed hr hv hequal (hfree hlinked) (hs.noneAnswers_of_find? hfind)
  case unhash t e =>
    obtain ⟨result, l₁, hunhash, rfl, rfl⟩ := h
    obtain ⟨r, a, hr, -, ⟨he, rfl, -⟩ | ⟨he, rfl, -⟩⟩ := Ledger.unhash_cases hunhash
    · exact .unhashed hr he
    · exact .notHashed hr he
  case lookup t key =>
    obtain ⟨result, l₁, hlookup, rfl, rfl⟩ := h
    obtain ⟨r, hr, ⟨hfind, rfl, -⟩ | ⟨e, hfind, rfl, -⟩⟩ := Ledger.lookup_cases hlookup
    · exact .notFound hr (hs.noneAnswers_of_find? hfind)
    · obtain ⟨before, after, v, hentries, hv, hequal, hbefore⟩ := hs.exists_of_find? hfind
      exact .found hr hentries hv hequal hbefore
  case count t =>
    obtain ⟨r, hr, rfl, rfl⟩ := h
    exact .count hr
  case lengths t =>
    obtain ⟨lengths, hlengths, rfl, rfl⟩ := h
    obtain ⟨r, hr, hlengths⟩ := Option.bind_eq_some_iff.mp hlengths
    obtain rfl := Option.some.inj hlengths
    exact .lengths hr
  case walk t i number choose =>
    obtain ⟨visits, l₁, hwalk, rfl, rfl⟩ := h
    obtain ⟨r, hr, -, hvisit⟩ := Ledger.walk_eq_some_iff.mp hwalk
    exact .walked hr (hs.value?_eq ▸ Ledger.shows_of_visit hvisit) (Ledger.choice_of_visit hvisit)
  case survey t choose =>
    obtain ⟨visits, l₁, hsurvey, rfl, rfl⟩ := h
    obtain ⟨r, hr, hsurvey⟩ := Option.bind_eq_some_iff.mp hsurvey
    exact .surveyed hr (hs.value?_eq ▸ Ledger.shows_of_survey hr hsurvey)
      (Ledger.choice_of_survey hsurvey)
  case drain t i =>
    obtain ⟨released, l₁, hdrain, rfl, rfl⟩ := h
    obtain ⟨r, hr, -, rfl, -⟩ := Ledger.drain_eq_some_iff.mp hdrain
    exact .drained hr

/-! ## Runs -/

theorem rostersAfter_concat (trace : List (Call V K × Reply V)) (c : Call V K) (reply : Reply V) :
    rostersAfter (trace ++ [(c, reply)]) = noted (rostersAfter trace) (c, reply) := by
  simp [rostersAfter]

theorem Runs.exists_agrees (h : Runs trace s) :
    ∃ l, Ledger.empty.callAll (trace.map Prod.fst) = some (trace.map Prod.snd, l) ∧
      s.Agrees l ∧ s.locks = [] ∧ rostersAfter trace = l.roster? := by
  obtain ⟨l, hcalls, hs, hidle⟩ := h.exists_ledger
  refine ⟨l, hcalls, hs, hidle, ?_⟩
  have hrosters := Ledger.callAll_induction
    (motive := fun trace l => rostersAfter trace = l.roster?) rfl
    (fun trace l c reply l' ih _ hcall => by
      rw [rostersAfter_concat, ih, Ledger.roster?_of_call hcall]) hcalls
  simpa [List.zip_map'] using hrosters

theorem Runs.lists (h : Runs trace s) : s.Lists (rostersAfter trace) := by
  obtain ⟨l, -, hs, -, hrosters⟩ := h.exists_agrees
  exact hrosters ▸ hs.lists

/-- The answer to a call that is permitted. -/
theorem Runs.answers (h : Runs trace s) (hpermits : s.Permits c) :
    ∃ reply s', s.call c = .ok (reply, s') ∧ s.Answers (rostersAfter trace) c reply ∧
      s'.Lists (noted (rostersAfter trace) (c, reply)) ∧
      ∀ e, s'.references e + c.returned.count e = s.references e + (c.handed reply).count e := by
  obtain ⟨l, -, hs, hidle, hrosters⟩ := h.exists_agrees
  obtain ⟨reply, l', hcall⟩ := Ledger.exists_call hs.covered (hs.permits_iff.mp hpermits)
  obtain ⟨s', hok, -⟩ := hs.call hidle hcall
  have hlists := (h.call hpermits hok).lists
  rw [rostersAfter_concat] at hlists
  exact ⟨reply, s', hok, hrosters ▸ hs.answers hcall, hlists,
    hs.references_of_call hidle hok hpermits⟩

/-- A run with other capacities, which is answered in the same way. -/
theorem Runs.exists_alike (h : Runs trace s) {calls : List (Call V K)}
    (halike : List.Forall₂ Call.Alike (trace.map Prod.fst) calls) :
    ∃ s', Runs (calls.zip (trace.map Prod.snd)) s' := by
  obtain ⟨l, hcalls, -⟩ := h.exists_ledger
  obtain ⟨l', hcalls'⟩ := Ledger.callAll_of_alike halike hcalls
  obtain ⟨s', -, h'⟩ := runs_of_callAll hcalls'
  exact ⟨s', h'⟩

/-- Tables are lists, and they behave as lists, whatever the strategies and the capacities are. -/
theorem Runs.flatList (h : Runs trace s) :
    s.Lists (rostersAfter trace) ∧
      (∀ c, s.Permits c → ∃ reply s', s.call c = .ok (reply, s') ∧
        s.Answers (rostersAfter trace) c reply ∧
        (∀ reply', c.isDetermined = true → s.Answers (rostersAfter trace) c reply' →
          reply' = reply) ∧
        s'.Lists (noted (rostersAfter trace) (c, reply)) ∧
        ∀ e, s'.references e + c.returned.count e = s.references e + (c.handed reply).count e) ∧
      ∀ calls, List.Forall₂ Call.Alike (trace.map Prod.fst) calls →
        ∃ s', Runs (calls.zip (trace.map Prod.snd)) s' := by
  refine ⟨h.lists, fun c hpermits => ?_, fun calls halike => h.exists_alike halike⟩
  obtain ⟨reply, s', hok, hanswers, hlists, hreferences⟩ := h.answers hpermits
  exact ⟨reply, s', hok, hanswers, fun reply' hc h' => hanswers.reply_eq h' hc, hlists,
    hreferences⟩

/-- Of three elements in one bucket the one that is asked for is found, and with more buckets the
calls are answered in the same way. -/
theorem flatList_of_colliding : ∃ (trace : List (Call Nat Nat × Reply Nat))
    (s s' s₁ : Store Nat Nat) (r : Roster Nat Nat), Runs trace s ∧
      rostersAfter trace 0 = some r ∧ r.bucket 7 = [(2, 71), (1, 39), (0, 7)] ∧
      s.Lists (rostersAfter trace) ∧ s.call (.lookup 0 39) = .ok (.found (.ok 1), s') ∧
      s.Answers (rostersAfter trace) (.lookup 0 39) (.found (.ok 1)) ∧
      Runs ((collidingCalls .standard).zip (trace.map Prod.snd)) s₁ := by
  obtain ⟨s', h'⟩ := exists_runs (collidingCalls .least ++ [.lookup 0 39])
    (collidingReplies ++ [.found (.ok 1)]) rfl
  change Runs ((collidingCalls .least).zip collidingReplies ++ [(.lookup 0 39, .found (.ok 1))]) s'
    at h'
  obtain ⟨s, h, hpermits, hcall⟩ := h'.exists_last
  obtain ⟨hlists, hcalls, halike⟩ := Runs.flatList h
  obtain ⟨reply, s'', hok, hanswers, -⟩ := hcalls _ hpermits
  obtain ⟨rfl, -⟩ := Prod.mk.inj (Except.ok.inj (hok.symm.trans hcall))
  obtain ⟨s₁, h₁⟩ := halike (collidingCalls .standard)
    (.cons (.createTable _ _ _) (List.forall₂_same.mpr fun c hc =>
      .same ((List.all_eq_true (p := Call.isPlain)).mp rfl c hc)))
  exact ⟨_, s, s', s₁, _, h, rfl, rfl, hlists, hcall, hanswers, h₁⟩

end Store

end HashIndex
