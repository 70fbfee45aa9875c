import HashIndex.Proofs.Agreement.Membership

/-!
# Traversals agree with a ledger

A bucket is walked by the raw links of its elements while elements leave the chain, read by a
counting iterator, or emptied from the front. Each of them meets exactly the entries of the roster
that fall into the bucket, latest first.

## Main statements

* `Store.Agrees.walkBucket`, `Store.Agrees.readBuckets`: visits.
* `Store.Agrees.chainLengths`: the lengths of all chains.
* `Store.Agrees.drainBucket`: taking everything out.
-/

namespace HashIndex

variable {V K : Type}

namespace Store

variable {s s' : Store V K} {l l' : Ledger V K} {t : TableId} {r : Roster V K}
  {table : Table V K} {i : Nat} {e : ElementId} {hash : UInt32}
  {kept rest : List (ElementId × UInt32)}

theorem Agrees.exists_locked (hs : s.Agrees l) (hidle : s.locks = []) (lock : Lock) :
    ∃ s', s.lock lock = .ok s' ∧ s'.Agrees l ∧ s'.locks = [lock] := by
  obtain ⟨s', hlock, hlocks, hheap, htables⟩ := exists_lock s hidle lock
  exact ⟨s', hlock, hs.congr hheap htables, hlocks⟩

theorem Agrees.exists_chain (hs : s.Agrees l) (hr : l.roster? t = some r)
    (hi : i < r.capacity.size) :
    ∃ c, s.chain t i = .ok c ∧ c.Represents s.heap ((r.bucket i).map Prod.fst) := by
  obtain ⟨table, ht, htable⟩ := hs.exists_table hr
  obtain ⟨c, hc, hrep⟩ := htable.chain i hi
  exact ⟨c, chain_eq ht hc, hrep⟩

/-! ## Walking with the right to take out -/

/-- An element that is treated keeps its place in the bucket, or leaves it to those after it. -/
theorem Agrees.treat (hs : s.Agrees l) (hr : l.roster? t = some r) (hslot : r.slot hash = i)
    (hbucket : r.bucket i = kept ++ (e, hash) :: rest) (choice : Choice) :
    ∃ s' r' kept', s.treat t i e choice = .ok s' ∧ s'.Agrees (l.treat t e choice) ∧
      s'.locks = s.locks ∧ (l.treat t e choice).roster? t = some r' ∧
      r'.capacity = r.capacity ∧ r'.bucket i = kept' ++ rest := by
  have hmem : (e, hash) ∈ r.entries := by
    have hmem : (e, hash) ∈ r.bucket i := by simp [hbucket]
    exact (Roster.mem_bucket_iff.mp hmem).1
  obtain ⟨x, hx, -⟩ := hs.listed t r hr e hash hmem
  obtain ⟨s₁, hhold, hs₁, hlocks₁⟩ := hs.lendIf hx choice.hold
  have hr₁ : (l.lendIf choice.hold e).roster? t = some r := by simpa using hr
  simp only [Store.treat, hhold, Fault.ok_bind, Ledger.treat]
  by_cases hunhash : choice.unhash = true
  · obtain ⟨s₂, hdetach, hs₂, hlocks₂⟩ := hs₁.detach hr₁ hmem
    rw [hslot] at hdetach
    have hnodup := Roster.nodup_bucket (hs.nodup t r hr) i
    rw [hbucket, List.map_append, List.map_cons, List.nodup_middle, List.nodup_cons,
      List.mem_append, not_or] at hnodup
    have hothers : ∀ entry ∈ kept ++ rest, entry.1 ≠ e := by
      rintro ⟨f, hash'⟩ hf heq
      obtain rfl : f = e := heq
      rcases List.mem_append.mp hf with hf | hf
      · exact hnodup.1.1 (List.mem_map.mpr ⟨_, hf, rfl⟩)
      · exact hnodup.1.2 (List.mem_map.mpr ⟨_, hf, rfl⟩)
    simp only [hunhash, if_true]
    refine ⟨s₂, r.remove e, kept, hdetach, hs₂, hlocks₂.trans hlocks₁, ?_, rfl, ?_⟩
    · rw [Ledger.roster?_detach, if_pos rfl, hr₁, Option.map_some]
    · rw [Roster.bucket_remove, hbucket, List.filter_append, List.filter_cons_of_neg (by simp),
        ← List.filter_append, List.filter_eq_self]
      simpa using hothers
  · simp only [hunhash, Bool.false_eq_true, if_false]
    exact ⟨s₁, r, kept ++ [(e, hash)], rfl, hs₁, hlocks₁, hr₁, rfl, by simp [hbucket]⟩

/-- A walk goes through what is left of a bucket, whatever it does with the elements. -/
theorem Agrees.walkFrom (hs : s.Agrees l) (hr : l.roster? t = some r)
    (hi : i < r.capacity.size) (hbucket : r.bucket i = kept ++ rest) {steps : Nat}
    (hsteps : rest.length ≤ steps) (choose : Nat → V → Choice) (number : Nat) :
    ∃ walk l', Store.walkFrom t i choose steps (rest.map Prod.fst).head? number s = .ok walk ∧
      Ledger.visit t choose rest number l = some (walk.visits, l') ∧
      walk.released = Ledger.takenOut walk.visits ∧ walk.store.Agrees l' ∧
      walk.store.locks = s.locks := by
  induction rest generalizing s l r kept steps number with
  | nil => exact ⟨⟨[], [], s⟩, l, by simp [Store.walkFrom], rfl, rfl, hs, rfl⟩
  | cons entry rest ih =>
    obtain ⟨e, hash⟩ := entry
    obtain ⟨steps, rfl⟩ : ∃ n, steps = n + 1 := Nat.exists_eq_add_one_of_ne_zero (by
      rintro rfl
      simp at hsteps)
    have hmem : (e, hash) ∈ r.bucket i := by simp [hbucket]
    obtain ⟨hmem, hslot⟩ := Roster.mem_bucket_iff.mp hmem
    obtain ⟨c, -, hrep⟩ := hs.exists_chain hr hi
    rw [hbucket, List.map_append, List.map_cons] at hrep
    obtain ⟨x, hx, -, hhash⟩ := hs.listed t r hr e hash hmem
    obtain ⟨a, ha, hxa⟩ := hs.exists_account hx
    obtain ⟨s₁, r₁, kept₁, htreat, hs₁, hlocks₁, hr₁, hcapacity, hbucket₁⟩ :=
      hs.treat hr hslot hbucket (choose number x.value)
    obtain ⟨walk, l', hwalk, hvisit, hreleased, hs', hlocks⟩ :=
      ih hs₁ hr₁ (hcapacity ▸ hi) hbucket₁ (Nat.le_of_succ_le_succ hsteps) (number + 1)
    have hfollowing := hrep.following
    set visit : Visit V := ⟨number, e, x.value, x.hash, choose number x.value⟩ with hv
    have hreleased : (if visit.choice.unhash then e :: walk.released else walk.released) =
        Ledger.takenOut (visit :: walk.visits) := by
      simp only [hreleased, Ledger.takenOut, List.filter_cons]
      split <;> rfl
    refine ⟨⟨visit :: walk.visits, Ledger.takenOut (visit :: walk.visits), walk.store⟩, l', ?_, ?_,
      rfl, hs', hlocks.trans hlocks₁⟩
    · rw [← hreleased]
      simp only [List.map_cons, List.head?_cons, Store.walkFrom, hfollowing, Fault.ok_bind,
        Heap.read_eq hx, htreat, hwalk, Fault.pure_eq_ok, hv]
    · simp only [Ledger.visit, ha, Option.bind_eq_bind, Option.bind_some, ← hxa.value, hvisit,
        Option.pure_def, ← hhash, hv]

/-- A walk through a bucket visits the entries of the ledger that fall into the bucket. -/
theorem Agrees.walkBucket (hs : s.Agrees l) (hidle : s.locks = []) {number : Nat}
    {choose : Nat → V → Choice} {visits : List (Visit V)}
    (hwalk : l.walk t i number choose = some (visits, l')) :
    ∃ s', s.walkBucket t i number choose = .ok ⟨visits, Ledger.takenOut visits, s'⟩ ∧
      s'.Agrees l' ∧ s'.locks = [] := by
  simp only [Ledger.walk, Option.bind_eq_bind, Option.bind_eq_some_iff] at hwalk
  obtain ⟨r, hr, hwalk⟩ := hwalk
  split at hwalk
  · simp at hwalk
  next hi =>
    rw [Classical.not_not] at hi
    obtain ⟨s₁, hlock, hs₁, hlocks₁⟩ := hs.exists_locked hidle ⟨t, i, true⟩
    obtain ⟨c, hchain, hrep⟩ := hs₁.exists_chain hr hi
    have hsteps := hrep.length_le_size
    rw [List.length_map] at hsteps
    obtain ⟨walk, l'', hfrom, hvisit, hreleased, hs', hlocks⟩ :=
      hs₁.walkFrom hr hi (List.nil_append _).symm hsteps choose number
    obtain ⟨rfl, rfl⟩ := Prod.mk.inj (Option.some.inj (hvisit.symm.trans hwalk))
    rw [← hrep.head] at hfrom
    refine ⟨walk.store.unlock ⟨t, i, true⟩, ?_, hs'.congr rfl rfl, ?_⟩
    · simp only [Store.walkBucket, hlock, Fault.ok_bind, hchain, hfrom, Fault.pure_eq_ok,
        hreleased]
    · simp [Store.unlock, hlocks, hlocks₁]

/-! ## Reading -/

theorem Agrees.readEach (hs : s.Agrees l) (h : Heap V) (entries : List (ElementId × UInt32))
    (hread : ∀ e hash, (e, hash) ∈ entries → ∃ x a, h.get? e = some x ∧ x.hash = hash ∧
      l.account? e = some a ∧ a.value = x.value) (choose : Nat → V → Bool) (number : Nat) :
    ∃ visits s' l', Store.readEach choose (h.pick (entries.map Prod.fst)) number s =
        .ok (visits, s') ∧
      Ledger.visit t (fun n v => ⟨choose n v, false⟩) entries number l = some (visits, l') ∧
      s'.Agrees l' ∧ s'.locks = s.locks := by
  induction entries generalizing s l number with
  | nil => exact ⟨[], s, l, rfl, rfl, hs, rfl⟩
  | cons entry entries ih =>
    obtain ⟨e, hash⟩ := entry
    obtain ⟨x, a, hx, hhash, ha, hvalue⟩ := hread e hash (by simp)
    obtain ⟨y, hy, -⟩ := hs.exists_element ha
    obtain ⟨s₁, hhold, hs₁, hlocks₁⟩ := hs.lendIf hy (choose number x.value)
    -- the values were read before any reference was taken, which does not change them
    obtain ⟨visits, s', l', hrest, hvisit, hs', hlocks⟩ := ih hs₁ (fun f hash' hf => by
      obtain ⟨z, b, hz, hzhash, hb, hbvalue⟩ := hread f hash' (by simp [hf])
      rw [Ledger.account?_lendIf]
      split
      · subst f
        rw [hb]
        exact ⟨z, _, hz, hzhash, rfl, hbvalue⟩
      · exact ⟨z, b, hz, hzhash, hb, hbvalue⟩) (number + 1)
    refine ⟨⟨number, e, x.value, x.hash, ⟨choose number x.value, false⟩⟩ :: visits, s', l', ?_, ?_,
      hs', hlocks.trans hlocks₁⟩
    · rw [List.map_cons, Heap.pick_cons hx]
      simp only [Store.readEach, hhold, Fault.ok_bind, hrest, Fault.pure_eq_ok]
    · simp only [Ledger.visit, ha, Option.bind_eq_bind, Option.bind_some, hvalue, Ledger.treat,
        Bool.false_eq_true, if_false, hvisit, Option.pure_def, hhash]

theorem Agrees.readBucket (hs : s.Agrees l) (hidle : s.locks = []) {number : Nat}
    {choose : Nat → V → Bool} {visits : List (Visit V)}
    (hwalk : l.walk t i number (fun n v => ⟨choose n v, false⟩) = some (visits, l')) :
    ∃ s', s.readBucket t i number choose = .ok (visits, s') ∧ s'.Agrees l' ∧ s'.locks = [] := by
  simp only [Ledger.walk, Option.bind_eq_bind, Option.bind_eq_some_iff] at hwalk
  obtain ⟨r, hr, hwalk⟩ := hwalk
  split at hwalk
  · simp at hwalk
  next hi =>
    rw [Classical.not_not] at hi
    obtain ⟨s₁, hlock, hs₁, hlocks₁⟩ := hs.exists_locked hidle ⟨t, i, false⟩
    obtain ⟨c, hchain, hrep⟩ := hs₁.exists_chain hr hi
    obtain ⟨visits', s', l'', hread, hvisit, hs', hlocks⟩ :=
      hs₁.readEach (t := t) s₁.heap (r.bucket i) (fun e hash he => by
        obtain ⟨he, -⟩ := Roster.mem_bucket_iff.mp he
        obtain ⟨x, hx, -, hhash⟩ := hs₁.listed t r hr e hash he
        obtain ⟨a, ha, hxa⟩ := hs₁.exists_account hx
        exact ⟨x, a, hx, hhash, ha, hxa.value.symm⟩) choose number
    obtain ⟨rfl, rfl⟩ := Prod.mk.inj (Option.some.inj (hvisit.symm.trans hwalk))
    refine ⟨s'.unlock ⟨t, i, false⟩, ?_, hs'.congr rfl rfl, ?_⟩
    · simp only [Store.readBucket, hlock, Fault.ok_bind, hchain, hrep.elements, hread,
        Fault.pure_eq_ok]
    · simp [Store.unlock, hlocks, hlocks₁]

/-- Buckets that are only read show what the ledger has for them, one after the other. -/
theorem Agrees.readBuckets (hs : s.Agrees l) (hidle : s.locks = []) {choose : Nat → V → Bool}
    {buckets : List Nat} {number : Nat} {visits : List (List (Visit V))}
    (hsurvey : Ledger.surveyBuckets t choose buckets number l = some (visits, l'))
    (before : List (List (Visit V))) :
    ∃ s', Store.readBuckets t choose buckets before number s = .ok (before.reverse ++ visits, s') ∧
      s'.Agrees l' ∧ s'.locks = [] := by
  induction buckets generalizing s l number before visits with
  | nil =>
    obtain ⟨rfl, rfl⟩ := by simpa [Ledger.surveyBuckets] using hsurvey
    exact ⟨s, by simp [Store.readBuckets], hs, hidle⟩
  | cons i buckets ih =>
    simp only [Ledger.surveyBuckets, Option.bind_eq_bind, Option.bind_eq_some_iff,
      Option.pure_def, Option.some.injEq, Prod.mk.injEq, Prod.exists] at hsurvey
    obtain ⟨first, l₁, hwalk, rest, l₂, hrest, rfl, rfl⟩ := hsurvey
    obtain ⟨s₁, hread, hs₁, hidle₁⟩ := hs.readBucket hidle hwalk
    obtain ⟨s', hok, hs', hidle'⟩ := ih hs₁ hidle₁ hrest (first :: before)
    refine ⟨s', ?_, hs', hidle'⟩
    simp only [Store.readBuckets, hread, Fault.ok_bind, hok, List.reverse_cons, List.append_assoc,
      List.singleton_append]

theorem Agrees.bucketRange (hs : s.Agrees l) (hr : l.roster? t = some r) :
    s.bucketRange t = .ok (List.range r.capacity.size) := by
  obtain ⟨table, ht, htable⟩ := hs.exists_table hr
  rw [bucketRange_eq ht, htable.size]

theorem Agrees.chainLengths (hs : s.Agrees l) (hidle : s.locks = []) (hr : l.roster? t = some r)
    (buckets : List Nat) (hbuckets : ∀ i ∈ buckets, i < r.capacity.size) (before : List Nat) :
    ∃ s', Store.chainLengths t buckets before s =
        .ok (before.reverse ++ buckets.map fun i => (r.bucket i).length, s') ∧
      s'.Agrees l ∧ s'.locks = [] := by
  induction buckets generalizing s before with
  | nil => exact ⟨s, by simp [Store.chainLengths], hs, hidle⟩
  | cons i buckets ih =>
    obtain ⟨s₁, hlock, hs₁, hlocks₁⟩ := hs.exists_locked hidle ⟨t, i, false⟩
    obtain ⟨c, hchain, hrep⟩ := hs₁.exists_chain hr (hbuckets i (by simp))
    have hlength := hrep.length
    rw [List.length_map] at hlength
    obtain ⟨s', hok, hs', hidle'⟩ := ih (s := s₁.unlock ⟨t, i, false⟩) (hs₁.congr rfl rfl)
      (by simp [Store.unlock, hlocks₁]) (fun j hj => hbuckets j (by simp [hj]))
      ((r.bucket i).length :: before)
    refine ⟨s', ?_, hs', hidle'⟩
    simp only [Store.chainLengths, Store.chainLength, hlock, Fault.ok_bind, hchain, hlength,
      Fault.pure_eq_ok, hok, List.reverse_cons, List.append_assoc, List.singleton_append,
      List.map_cons]

/-! ## Draining -/

/-- A bucket is emptied from the front, and the elements come out in the order of the ledger. -/
theorem Agrees.popAll (hs : s.Agrees l) (hr : l.roster? t = some r) (hi : i < r.capacity.size)
    {elements : List ElementId} (hbucket : (r.bucket i).map Prod.fst = elements) :
    ∃ s', Store.popAll t i (elements.length + 1) s = .ok (elements, s') ∧
      s'.Agrees (elements.foldl (fun l e => l.detach t e) l) ∧ s'.locks = s.locks := by
  induction elements generalizing s l r with
  | nil =>
    obtain ⟨c, hchain, hrep⟩ := hs.exists_chain hr hi
    rw [hbucket] at hrep
    refine ⟨s, ?_, hs, rfl⟩
    simp only [Store.popAll, hchain, Fault.ok_bind, hrep.popFront_nil, Fault.pure_eq_ok]
  | cons e elements ih =>
    obtain ⟨c, hchain, hrep⟩ := hs.exists_chain hr hi
    obtain ⟨table, ht, -⟩ := hs.exists_table hr
    have hmem : e ∈ (r.bucket i).map Prod.fst := by simp [hbucket]
    obtain ⟨hash, he, rfl⟩ : ∃ hash, (e, hash) ∈ r.entries ∧ r.slot hash = i := by
      obtain ⟨⟨f, hash⟩, hf, heq⟩ := List.mem_map.mp hmem
      obtain rfl : f = e := heq
      exact ⟨hash, Roster.mem_bucket_iff.mp hf⟩
    have hpos := hs.entries_ne_zero hr ht (Roster.mem_elements_iff.mpr ⟨hash, he⟩)
    rw [hbucket] at hrep
    obtain ⟨c', h', hpop, hc', hwords, hlinks, hother⟩ := hrep.popFront_cons
    obtain ⟨y, hy, -⟩ := Heap.exists_of_links hlinks
    set s₁ : Store V K := Store.setChain { s with heap := h' } t (r.slot hash) c' with hs₁
    have ht₁ : s₁.table? t = some (table.setChain (r.slot hash) c') :=
      table?_setChain (s := { s with heap := h' }) ht _ _
    set s₂ : Store V K := Store.modifyTable { s₁ with heap := s₁.heap.write e y.abandon } t
      fun table => { table with entries := table.entries - 1 } with hs₂
    have hagrees : s₂.Agrees (l.detach t e) := by
      refine hs.unlinked hr he ht ?_ hwords hlinks ?_ hy rfl rfl
      · rw [hbucket, List.erase_cons_head]
        exact hc'
      · rw [hbucket]
        exact hother
    have hr' : (l.detach t e).roster? t = some (r.remove e) := by
      rw [Ledger.roster?_detach, if_pos rfl, hr, Option.map_some]
    obtain ⟨s', hok, hs', hlocks⟩ := ih hagrees hr' hi (by
      rw [Roster.map_bucket_remove (hs.nodup t r hr), hbucket, List.erase_cons_head])
    refine ⟨s', ?_, hs', hlocks⟩
    have habandon : s₁.updateElement e Element.abandon = .ok _ := updateElement_eq hy _
    have hremove := removeEntry_eq (s := { s₁ with heap := s₁.heap.write e y.abandon }) ht₁ hpos
    rw [List.length_cons, Store.popAll]
    simp only [hchain, Fault.ok_bind, hpop, ← hs₁, habandon, hremove, ← hs₂, hok,
      Fault.pure_eq_ok]

/-- Draining a bucket gives all its references to the caller. -/
theorem Agrees.drainBucket (hs : s.Agrees l) (hidle : s.locks = []) {released : List ElementId}
    (hdrain : l.drain t i = some (released, l')) :
    ∃ s', s.drainBucket t i = .ok (released, s') ∧ s'.Agrees l' ∧ s'.locks = [] := by
  simp only [Ledger.drain, Option.bind_eq_bind, Option.bind_eq_some_iff, Option.pure_def] at hdrain
  obtain ⟨r, hr, hdrain⟩ := hdrain
  split at hdrain
  · simp at hdrain
  next hi =>
    rw [Classical.not_not] at hi
    obtain ⟨rfl, rfl⟩ := Prod.mk.inj (Option.some.inj hdrain)
    obtain ⟨s₁, hlock, hs₁, hlocks₁⟩ := hs.exists_locked hidle ⟨t, i, true⟩
    obtain ⟨c, hchain, hrep⟩ := hs₁.exists_chain hr hi
    obtain ⟨s', hpop, hs', hlocks⟩ := hs₁.popAll hr hi rfl
    refine ⟨s'.unlock ⟨t, i, true⟩, ?_, hs'.congr rfl rfl, ?_⟩
    · simp only [Store.drainBucket, hlock, Fault.ok_bind, hchain, hrep.length, hpop,
        Fault.pure_eq_ok]
    · simp [Store.unlock, hlocks, hlocks₁]

end Store

end HashIndex
