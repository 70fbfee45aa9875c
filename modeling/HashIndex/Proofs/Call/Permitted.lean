import HashIndex.Proofs.Call.Effect

/-!
# Which calls are permitted

To make a call takes no more than a reference to the element and a table that it names; a bucket
has to be one of the table, and a table that is forgotten has to be without elements. Nothing else
about the state of an index matters.

## Main definitions

* `Ledger.Permits`: what a caller needs for a call.

## Main statements

* `Ledger.permits_iff`: such calls, and no others, have an outcome.
-/

namespace HashIndex.Ledger

variable {V K : Type} {l l' : Ledger V K} {c : Call V K} {reply : Reply V} {e : ElementId}
  {t : TableId} {r : Roster V K} {a : Account V}

/-- The caller has what he needs for a call. -/
def Permits (l : Ledger V K) : Call V K → Prop
  | .create _ | .createTable _ _ => True
  | .hold e | .put e => ∃ a, l.held? e = some a
  | .freeTable t => ∃ r, l.roster? t = some r ∧ r.entries = []
  | .hash t e _ | .unhash t e => (∃ r, l.roster? t = some r) ∧ ∃ a, l.held? e = some a
  | .lookup t _ | .count t | .lengths t | .survey t _ => ∃ r, l.roster? t = some r
  | .walk t i _ _ | .drain t i => ∃ r, l.roster? t = some r ∧ i < r.capacity.size

/-- What a ledger answers it permits. -/
theorem permits_of_call (h : l.call c = some (reply, l')) : l.Permits c := by
  cases c <;> simp only [call, Option.bind_eq_bind, Option.bind_eq_some_iff, Prod.exists] at h
  case create | createTable => trivial
  case hold e =>
    obtain ⟨l₁, hhold, -⟩ := h
    obtain ⟨a, ha, -⟩ := Option.bind_eq_some_iff.mp hhold
    exact ⟨a, ha⟩
  case put e =>
    obtain ⟨destroyed, l₁, hput, -⟩ := h
    obtain ⟨a, ha, -⟩ := Option.bind_eq_some_iff.mp hput
    exact ⟨a, ha⟩
  case freeTable t =>
    obtain ⟨l₁, hfree, -⟩ := h
    obtain ⟨r, hr, hfree⟩ := Option.bind_eq_some_iff.mp hfree
    refine ⟨r, hr, ?_⟩
    by_contra hentries
    simp [hentries] at hfree
  case hash t e key =>
    obtain ⟨result, l₁, hhash, -⟩ := h
    obtain ⟨r, a, hr, ha, -⟩ := hash_cases hhash
    exact ⟨⟨r, hr⟩, a, ha⟩
  case unhash t e =>
    obtain ⟨result, l₁, hunhash, -⟩ := h
    obtain ⟨r, a, hr, ha, -⟩ := unhash_cases hunhash
    exact ⟨⟨r, hr⟩, a, ha⟩
  case lookup t key =>
    obtain ⟨result, l₁, hlookup, -⟩ := h
    obtain ⟨r, hr, -⟩ := lookup_cases hlookup
    exact ⟨r, hr⟩
  case count t =>
    obtain ⟨r, hr, -⟩ := h
    exact ⟨r, hr⟩
  case lengths t =>
    obtain ⟨lengths, hlengths, -⟩ := h
    obtain ⟨r, hr, -⟩ := Option.bind_eq_some_iff.mp hlengths
    exact ⟨r, hr⟩
  case walk t i number choose =>
    obtain ⟨visits, l₁, hwalk, -⟩ := h
    obtain ⟨r, hr, hi, -⟩ := walk_eq_some_iff.mp hwalk
    exact ⟨r, hr, hi⟩
  case survey t choose =>
    obtain ⟨visits, l₁, hsurvey, -⟩ := h
    obtain ⟨r, hr, -⟩ := Option.bind_eq_some_iff.mp hsurvey
    exact ⟨r, hr⟩
  case drain t i =>
    obtain ⟨released, l₁, hdrain, -⟩ := h
    obtain ⟨r, hr, hi, -⟩ := drain_eq_some_iff.mp hdrain
    exact ⟨r, hr, hi⟩

/-- Visits to elements that are there come to their end. -/
theorem exists_visit (t : TableId) (choose : Nat → V → Choice) (number : Nat)
    (entries : List (ElementId × UInt32))
    (hlive : ∀ entry ∈ entries, ∃ a, l.account? entry.1 = some a) :
    ∃ visits l', visit t choose entries number l = some (visits, l') := by
  induction entries generalizing l number with
  | nil => exact ⟨[], l, rfl⟩
  | cons entry entries ih =>
    obtain ⟨e, hash⟩ := entry
    obtain ⟨a, ha⟩ := hlive (e, hash) (by simp)
    obtain ⟨es, hes, -⟩ := yields_treat t ha (choose number a.value)
    obtain ⟨visits, l', hvisits⟩ := @ih (l.treat t e (choose number a.value)) (number + 1)
      fun entry hentry => by
        obtain ⟨b, hb⟩ := hlive entry (List.mem_cons_of_mem _ hentry)
        rw [hes.account?_eq, hb]
        exact ⟨_, rfl⟩
    simp only [visit, ha, hvisits, Option.bind_eq_bind, Option.bind_some, Option.pure_def]
    exact ⟨_, _, rfl⟩

theorem exists_walk (hcovered : l.Covered) (hr : l.roster? t = some r) {i : Nat}
    (hi : i < r.capacity.size) (number : Nat) (choose : Nat → V → Choice) :
    ∃ visits l', l.walk t i number choose = some (visits, l') := by
  obtain ⟨visits, l', hvisit⟩ := exists_visit t choose number (r.bucket i)
    fun entry hentry =>
      hcovered t r hr _ (Roster.mem_elements_iff.mpr ⟨_, (Roster.mem_bucket_iff.mp hentry).1⟩)
  exact ⟨visits, l', walk_eq_some_iff.mpr ⟨r, hr, hi, hvisit⟩⟩

theorem Yields.covered {es : List ElementId} (h : l.Yields es l') (hcovered : l.Covered) :
    l'.Covered := by
  intro t r' hr' e he
  obtain ⟨r, hr, hthins⟩ := h.exists_roster_of hr'
  obtain ⟨a, ha⟩ := hcovered t r hr e ((hthins.sublist.map _).subset he)
  rw [h.account?_eq, ha]
  exact ⟨_, rfl⟩

theorem exists_survey (hcovered : l.Covered) (hr : l.roster? t = some r)
    (choose : Nat → V → Bool) (buckets : List Nat) (hbuckets : ∀ i ∈ buckets, i < r.capacity.size)
    (number : Nat) :
    ∃ visits l', surveyBuckets t choose buckets number l = some (visits, l') := by
  induction buckets generalizing l r number with
  | nil => exact ⟨[], l, rfl⟩
  | cons i buckets ih =>
    obtain ⟨first, l₁, hwalk⟩ := exists_walk hcovered hr (hbuckets i (by simp)) number
      fun n v => ⟨choose n v, false⟩
    obtain ⟨es, hes, -⟩ : ∃ es, l.Yields es l₁ ∧ _ := by
      obtain ⟨r₁, -, -, hvisit⟩ := walk_eq_some_iff.mp hwalk
      exact yields_of_visit hvisit
    obtain ⟨r', hr', hthins⟩ := hes.exists_roster hr
    obtain ⟨rest, l', hrest⟩ := ih (hes.covered hcovered) hr'
      (fun j hj => hthins.capacity ▸ hbuckets j (List.mem_cons_of_mem _ hj))
      (number + first.length)
    simp only [surveyBuckets, hwalk, hrest, Option.bind_eq_bind,
      Option.bind_some, Option.pure_def]
    exact ⟨_, _, rfl⟩

theorem exists_hash (hr : l.roster? t = some r) (ha : l.held? e = some a) (key : K) :
    ∃ result l', l.hash t e key = some (result, l') := by
  simp only [hash, hr, ha, Option.bind_eq_bind, Option.bind_some, Option.pure_def]
  split
  · exact ⟨_, _, rfl⟩
  · split
    · exact ⟨_, _, rfl⟩
    · split <;> exact ⟨_, _, rfl⟩

/-- A caller who has what he needs gets an answer. -/
theorem exists_call (hcovered : l.Covered) (h : l.Permits c) :
    ∃ reply l', l.call c = some (reply, l') := by
  cases c with
  | create value => exact ⟨_, _, rfl⟩
  | createTable strategy capacity => exact ⟨_, _, rfl⟩
  | hold e =>
    obtain ⟨a, ha⟩ := h
    simp only [call, hold, ha, Option.bind_eq_bind, Option.bind_some,
      Option.pure_def]
    exact ⟨_, _, rfl⟩
  | put e =>
    obtain ⟨a, ha⟩ := h
    simp only [call, put, ha, Option.bind_eq_bind, Option.bind_some, Option.pure_def]
    split <;> exact ⟨_, _, rfl⟩
  | freeTable t =>
    obtain ⟨r, hr, hempty⟩ := h
    simp only [call, freeTable, hr, hempty, Option.bind_eq_bind, Option.bind_some,
      Option.pure_def, ne_eq, not_true_eq_false, if_false]
    exact ⟨_, _, rfl⟩
  | hash t e key =>
    obtain ⟨⟨r, hr⟩, a, ha⟩ := h
    obtain ⟨result, l', hhash⟩ := exists_hash hr ha key
    simp only [call, hhash, Option.bind_eq_bind, Option.bind_some,
      Option.pure_def]
    exact ⟨_, _, rfl⟩
  | unhash t e =>
    obtain ⟨⟨r, hr⟩, a, ha⟩ := h
    simp only [call, unhash, hr, ha, Option.bind_eq_bind, Option.bind_some, Option.pure_def]
    split <;> exact ⟨_, _, rfl⟩
  | lookup t key =>
    obtain ⟨r, hr⟩ := h
    simp only [call, lookup, hr, Option.bind_eq_bind, Option.bind_some, Option.pure_def]
    split <;> exact ⟨_, _, rfl⟩
  | count t =>
    obtain ⟨r, hr⟩ := h
    simp only [call, hr, Option.bind_eq_bind, Option.bind_some, Option.pure_def]
    exact ⟨_, _, rfl⟩
  | lengths t =>
    obtain ⟨r, hr⟩ := h
    simp only [call, lengths, hr, Option.bind_eq_bind, Option.bind_some,
      Option.pure_def]
    exact ⟨_, _, rfl⟩
  | walk t i number choose =>
    obtain ⟨r, hr, hi⟩ := h
    obtain ⟨visits, l', hwalk⟩ := exists_walk hcovered hr hi number choose
    simp only [call, hwalk, Option.bind_eq_bind, Option.bind_some,
      Option.pure_def]
    exact ⟨_, _, rfl⟩
  | survey t choose =>
    obtain ⟨r, hr⟩ := h
    obtain ⟨visits, l', hsurvey⟩ := exists_survey hcovered hr choose (List.range r.capacity.size)
      (by simp) 0
    simp only [call, survey, hr, hsurvey, Option.bind_eq_bind, Option.bind_some,
      Option.pure_def]
    exact ⟨_, _, rfl⟩
  | drain t i =>
    obtain ⟨r, hr, hi⟩ := h
    simp only [call, drain, hr, hi, Option.bind_eq_bind, Option.bind_some,
      Option.pure_def, not_true_eq_false, if_false]
    exact ⟨_, _, rfl⟩

theorem permits_iff (hcovered : l.Covered) :
    l.Permits c ↔ ∃ reply l', l.call c = some (reply, l') :=
  ⟨exists_call hcovered, fun ⟨_, _, h⟩ => permits_of_call h⟩

end HashIndex.Ledger
