import HashIndex.Proofs.Call.Refused
import HashIndex.Proofs.Chains

/-!
# Walking a chain that is edited

A walk follows the raw links of a chain while the elements that it visits may leave the chain. The
link of an element is read before anything is decided about it, at a moment when it is still linked,
so the walk never follows a link of an element that has left. It comes through the whole chain as it
was in the beginning, whatever pattern the elements that leave make.

## Main definitions

* `Decision`: what is decided at each visit.
* `Walker`, `Walker.round`, `Walker.after`: a walk that is under way, and its rounds.
* `Walker.Stands`: where a walk stands between two visits.
* `Store.HasChain`: a bucket of a store has the chain of a walk.

## Main statements

* `Walker.Stands.round`: one round.
* `Chain.Represents.exists_stands`: any number of rounds.
* `Store.HasChain.walkFrom`: the walk through a bucket of a store is such a walk.
* `Chain.Represents.walks_whole_chain`: a whole walk.
-/

namespace HashIndex

variable {V K : Type}

/-- What is decided at a visit, namely whether the element leaves the chain. The elements that were
visited before are known, and the element itself but for its links. -/
abbrev Decision (V : Type) := List ElementId → ElementId → Element V → Bool

structure Walker (V : Type) where
  cursor : Option ElementId
  chain : Chain
  heap : Heap V
  /-- The visits, in order, and whether the element left the chain. -/
  visits : List (ElementId × Bool)
  /-- The elements that left, in order, after those that were there before. -/
  released : List ElementId

def Chain.unlinkIf (c : Chain) (wanted : Bool) (e : ElementId) (h : Heap V) :
    Except Fault (Chain × Heap V) :=
  if wanted then c.unlink e h else .ok (c, h)

namespace Walker

def start (c : Chain) (h : Heap V) (released : List ElementId) : Walker V :=
  ⟨c.head, c, h, [], released⟩

/-- One round. The link of the element is read, and then the element may leave. A walk that has come
to its end stays there. -/
def round (decides : Decision V) (w : Walker V) : Except Fault (Walker V) :=
  match w.cursor with
  | none => .ok w
  | some e => do
    let next ← Chain.following e w.heap
    let x ← w.heap.read e
    let leaves := decides (w.visits.map Prod.fst) e x.bare
    let (chain, heap) ← w.chain.unlinkIf leaves e w.heap
    return {
      cursor := next
      chain := chain
      heap := heap
      visits := w.visits ++ [(e, leaves)]
      released := if leaves then w.released ++ [e] else w.released }

def after (decides : Decision V) : Nat → Walker V → Except Fault (Walker V)
  | 0, w => .ok w
  | rounds + 1, w => after decides rounds w >>= round decides

theorem after_succ (decides : Decision V) (rounds : Nat) (w : Walker V) :
    w.after decides (rounds + 1) = w.round decides >>= after decides rounds := by
  induction rounds with
  | zero =>
    simp only [after, Fault.ok_bind]
    cases w.round decides <;> rfl
  | succ rounds ih =>
    rw [after, ih]
    cases w.round decides <;> rfl

def gone (w : Walker V) : List ElementId := (w.visits.filter Prod.snd).map Prod.fst

def kept (w : Walker V) : List ElementId := (w.visits.filter fun v => !v.2).map Prod.fst

/-- A walk that began on the heap `h` stands between two visits. The elements `before` were visited,
as was decided for each of them, and `rest` are still to come. Those that left have no neighbours,
and the chain is what it was in the beginning without them. -/
structure Stands (decides : Decision V) (h : Heap V) (released before rest : List ElementId)
    (w : Walker V) : Prop where
  cursor : w.cursor = rest.head?
  visited : w.visits.map Prod.fst = before
  decided : ∀ k e leaves, w.visits[k]? = some (e, leaves) →
    ∃ x, h.get? e = some x ∧ leaves = decides (before.take k) e x.bare
  chain : w.chain.Represents w.heap (w.kept ++ rest)
  released : w.released = released ++ w.gone
  alone : ∀ e ∈ w.gone, w.heap.links e = some (none, none)
  words : h.SameWords w.heap
  others : ∀ e, e ∉ before ++ rest → w.heap.get? e = h.get? e

end Walker

/-! ## One round -/

namespace Chain

variable {c : Chain} {h k : Heap V} {as bs es : List ElementId} {e : ElementId}

theorem Represents.unlinkIf (hc : c.Represents h (as ++ e :: bs)) (wanted : Bool) :
    ∃ c' h', c.unlinkIf wanted e h = .ok (c', h') ∧
      c'.Represents h' ((if wanted then as else as ++ [e]) ++ bs) ∧ h.SameWords h' ∧
      (wanted = true → h'.links e = some (none, none)) ∧
      ∀ f, f ∉ as ++ e :: bs → h'.links f = h.links f := by
  cases wanted with
  | false =>
    exact ⟨c, h, rfl, by simpa using hc, .refl h, fun hw => absurd hw Bool.false_ne_true,
      fun _ _ => rfl⟩
  | true =>
    obtain ⟨c', h', hunlink, hc', hwords, hlinks, hothers⟩ := hc.unlink (e := e) (by simp)
    rw [hc.erase_eq] at hc'
    exact ⟨c', h', hunlink, hc', hwords, fun _ => hlinks, hothers⟩

/-- An element leaves a chain in the same way on any heap with the same links. -/
theorem Represents.unlink_congr (hc : c.Represents h es) (hlinks : ∀ f, k.links f = h.links f)
    (he : e ∈ es) :
    ∃ c' h' k', c.unlink e h = .ok (c', h') ∧ c.unlink e k = .ok (c', k') ∧ h.SameWords h' ∧
      k.SameWords k' ∧ (∀ f, k'.links f = h'.links f) ∧ k'.links e = some (none, none) := by
  obtain ⟨c', h', hunlink, hc', hwords, hout, hothers⟩ := hc.unlink he
  obtain ⟨c'', k', hunlink', hc'', hwords', hout', hothers'⟩ :=
    (hc.congr fun f _ => hlinks f).unlink he
  obtain rfl : c' = c'' := hc''.unique hc'
  refine ⟨c', h', k', hunlink, hunlink', hwords, hwords', fun f => ?_, hout'⟩
  by_cases hfe : f = e
  · rw [hfe, hout, hout']
  · by_cases hf : f ∈ es
    -- the links of the chain that is left are determined by its elements
    · exact hc'.threads.links_eq hc''.threads ((List.mem_erase_of_ne hfe).mpr hf)
    · rw [hothers f hf, hothers' f hf, hlinks f]

end Chain

namespace Walker

variable {decides : Decision V} {h : Heap V} {released before rest es : List ElementId}
  {w w' : Walker V} {e f : ElementId} {leaves : Bool}

theorem mem_gone_iff : e ∈ w.gone ↔ (e, true) ∈ w.visits := by
  simp [gone]

theorem mem_kept_iff : e ∈ w.kept ↔ (e, false) ∈ w.visits := by
  simp [kept]

theorem gone_concat (hvisits : w'.visits = w.visits ++ [(e, leaves)]) :
    w'.gone = if leaves then w.gone ++ [e] else w.gone := by
  cases leaves <;> simp [gone, hvisits]

theorem kept_concat (hvisits : w'.visits = w.visits ++ [(e, leaves)]) :
    w'.kept = if leaves then w.kept else w.kept ++ [e] := by
  cases leaves <;> simp [kept, hvisits]

/-- An element that is visited once either stays or leaves. -/
theorem not_mem_kept (hnodup : (w.visits.map Prod.fst).Nodup) (he : e ∈ w.gone) : e ∉ w.kept := by
  intro hkept
  have heq := List.inj_on_of_nodup_map hnodup (mem_gone_iff.mp he) (mem_kept_iff.mp hkept) rfl
  simp at heq

theorem kept_eq_filter (hnodup : (w.visits.map Prod.fst).Nodup) :
    w.kept = (w.visits.map Prod.fst).filter fun e => e ∉ w.gone := by
  rw [List.filter_map, kept]
  refine congrArg _ (List.filter_congr fun v hv => ?_)
  obtain ⟨e, leaves⟩ := v
  cases leaves with
  | false =>
    have hout : e ∉ w.gone := fun he => not_mem_kept hnodup he (mem_kept_iff.mpr hv)
    simp [hout]
  | true => simp [mem_gone_iff.mpr hv]

theorem Stands.not_mem_of_gone (hw : w.Stands decides h released before rest)
    (hnodup : (before ++ rest).Nodup) (he : e ∈ w.gone) : e ∉ w.kept ++ rest := by
  obtain ⟨hbefore, -, hdisjoint⟩ := List.nodup_append.mp hnodup
  have hmem : e ∈ before := hw.visited ▸ List.mem_map_of_mem (mem_gone_iff.mp he)
  rw [List.mem_append, not_or]
  exact ⟨not_mem_kept (hw.visited ▸ hbefore) he, fun hrest => hdisjoint e hmem e hrest rfl⟩

/-- A round visits the element at the cursor, which is linked. -/
theorem Stands.round (hw : w.Stands decides h released before (e :: rest))
    (hnodup : (before ++ e :: rest).Nodup) :
    ∃ x w', w.heap.get? e = some x ∧ Chain.following e w.heap = .ok rest.head? ∧
      w.chain.unlinkIf (decides before e x.bare) e w.heap = .ok (w'.chain, w'.heap) ∧
      w.round decides = .ok w' ∧ w'.visits = w.visits ++ [(e, decides before e x.bare)] ∧
      w'.Stands decides h released (before ++ [e]) rest := by
  obtain ⟨x, hx⟩ := hw.chain.get? (e := e) (by simp)
  have hfollowing := hw.chain.following
  obtain ⟨c, h', hunlink, hc, hwords, hlinks, hothers⟩ :=
    hw.chain.unlinkIf (decides before e x.bare)
  set leaves := decides before e x.bare with hleaves
  set w' : Walker V :=
    ⟨rest.head?, c, h', w.visits ++ [(e, leaves)],
      if leaves then w.released ++ [e] else w.released⟩ with hw'
  have hkept : w'.kept = if leaves then w.kept else w.kept ++ [e] := kept_concat rfl
  have hgone : w'.gone = if leaves then w.gone ++ [e] else w.gone := gone_concat rfl
  have hlength : w.visits.length = before.length := by rw [← hw.visited, List.length_map]
  refine ⟨x, w', hx, hfollowing, hunlink, ?_, rfl, ?_⟩
  · simp only [Walker.round, hw.cursor, List.head?_cons, hfollowing, Heap.read_eq hx, hw.visited,
      ← hleaves, hunlink, Fault.ok_bind, Fault.pure_eq_ok, hw']
  constructor
  case cursor => rfl
  case visited => simp [hw', hw.visited]
  case decided =>
    intro k f left hk
    rcases Nat.lt_or_ge k w.visits.length with hlt | hge
    · rw [List.getElem?_append_left hlt] at hk
      rw [List.take_append_of_le_length (hlength ▸ hlt.le)]
      exact hw.decided k f left hk
    · obtain rfl : k = w.visits.length := by
        have hlt := (List.getElem?_eq_some_iff.mp hk).1
        simp only [hw', List.length_append, List.length_singleton] at hlt
        omega
      obtain ⟨rfl, rfl⟩ : e = f ∧ leaves = left := by simpa [hw'] using hk
      have hbare := hw.words.bare e
      rw [hx, Option.map_some, eq_comm, Option.map_eq_some_iff] at hbare
      obtain ⟨y, hy, hxy⟩ := hbare
      exact ⟨y, hy, by rw [hlength, List.take_left, hxy]⟩
  case chain => rw [hkept]; exact hc
  case released =>
    rw [hgone]
    change (if leaves then w.released ++ [e] else w.released) = _
    split <;> simp [hw.released]
  case alone =>
    have hold : ∀ f ∈ w.gone, h'.links f = some (none, none) := fun f hf =>
      (hothers f (hw.not_mem_of_gone hnodup hf)).trans (hw.alone f hf)
    intro f hf
    rw [hgone] at hf
    split at hf
    next hleft =>
      rcases List.mem_append.mp hf with hf | hf
      · exact hold f hf
      · obtain rfl := List.mem_singleton.mp hf
        exact hlinks hleft
    next => exact hold f hf
  case words => exact hw.words.trans hwords
  case others =>
    intro f hf
    rw [List.append_assoc, List.singleton_append] at hf
    refine (hwords.get?_eq (hothers f fun hmem => hf ?_)).trans (hw.others f hf)
    rcases List.mem_append.mp hmem with hmem | hmem
    · exact List.mem_append_left _ (hw.visited ▸ List.mem_map_of_mem (mem_kept_iff.mp hmem))
    · exact List.mem_append_right _ hmem

end Walker

/-! ## Any number of rounds -/

/-- After any number of rounds the walk stands where it should. -/
theorem Chain.Represents.exists_stands {c : Chain} {h : Heap V} {es : List ElementId}
    (hc : c.Represents h es) (decides : Decision V) (released : List ElementId) {k : Nat}
    (hk : k ≤ es.length) :
    ∃ w, (Walker.start c h released).after decides k = .ok w ∧
      w.Stands decides h released (es.take k) (es.drop k) := by
  induction k with
  | zero =>
    exact ⟨_, rfl, hc.head, rfl, by simp [Walker.start],
      by simpa [Walker.kept, Walker.start] using hc, by simp [Walker.gone, Walker.start],
      by simp [Walker.gone, Walker.start], .refl h, fun _ _ => rfl⟩
  | succ k ih =>
    obtain ⟨w, hafter, hw⟩ := ih (Nat.le_of_succ_le hk)
    rw [List.drop_eq_getElem_cons hk] at hw
    have hnodup : (es.take k ++ es[k] :: es.drop (k + 1)).Nodup := by
      rw [← List.drop_eq_getElem_cons hk, List.take_append_drop]
      exact hc.nodup
    obtain ⟨x, w', -, -, -, hround, -, hw'⟩ := hw.round hnodup
    refine ⟨w', ?_, ?_⟩
    · rw [Walker.after, hafter, Fault.ok_bind, hround]
    · rwa [← List.take_succ_eq_append_getElem hk] at hw'

/-! ## The walk of a store -/

namespace Store

variable {s : Store V K} {t : TableId} {i n : Nat} {c : Chain} {h : Heap V} {e : ElementId}
  {x y : Element V} {as bs es before rest released : List ElementId}

/-- A bucket of a store has the chain of a walk, on elements with the same links and values, and the
table counts `n` entries at least. -/
structure HasChain (s : Store V K) (t : TableId) (i n : Nat) (c : Chain) (h : Heap V) : Prop where
  table : ∃ table, s.table? t = some table ∧ table.buckets[i]? = some c ∧ n ≤ table.entries
  links : ∀ e, s.heap.links e = h.links e
  values : ∀ e, (s.heap.get? e).map Element.value = (h.get? e).map Element.value

theorem HasChain.exists_get? (hs : s.HasChain t i n c h) (hx : h.get? e = some x) :
    ∃ y, s.heap.get? e = some y ∧ y.value = x.value ∧ y.next = x.next := by
  have hvalue := hs.values e
  rw [hx, Option.map_some, Option.map_eq_some_iff] at hvalue
  obtain ⟨y, hy, hvalue⟩ := hvalue
  have hlinks := hs.links e
  rw [Heap.links_eq hx, Heap.links_eq hy, Option.some.injEq, Prod.mk.injEq] at hlinks
  exact ⟨y, hy, hvalue, hlinks.2⟩

theorem HasChain.following (hs : s.HasChain t i n c h) (hx : h.get? e = some x) :
    Chain.following e s.heap = Chain.following e h := by
  obtain ⟨y, hy, -, hnext⟩ := hs.exists_get? hx
  simp only [Chain.following, Heap.read_eq hx, Heap.read_eq hy, Fault.ok_bind, hnext]

theorem HasChain.mono (hs : s.HasChain t i n c h) {m : Nat} (hm : m ≤ n) :
    s.HasChain t i m c h := by
  obtain ⟨table, ht, hc, hentries⟩ := hs.table
  exact ⟨⟨table, ht, hc, hm.trans hentries⟩, hs.links, hs.values⟩

/-- Words that are neither links nor values do not matter. -/
theorem HasChain.write (hs : s.HasChain t i n c h) (hx : s.heap.get? e = some x)
    (hlinks : (y.prev, y.next) = (x.prev, x.next)) (hvalue : y.value = x.value) :
    HasChain { s with heap := s.heap.write e y } t i n c h := by
  refine ⟨hs.table, fun f => (Heap.links_write_same hx hlinks f).trans (hs.links f), fun f => ?_⟩
  refine Eq.trans ?_ (hs.values f)
  change ((s.heap.write e y).get? f).map Element.value = _
  rw [Heap.get?_write hx]
  split
  next hf => rw [hf, hx, Option.map_some, Option.map_some, hvalue]
  next => rfl

theorem HasChain.holdIf (hs : s.HasChain t i n c h) (hx : h.get? e = some x) (wanted : Bool) :
    ∃ s', s.holdIf wanted e = .ok s' ∧ s'.HasChain t i n c h := by
  cases wanted with
  | false => exact ⟨s, rfl, hs⟩
  | true =>
    obtain ⟨y, hy, -⟩ := hs.exists_get? hx
    exact ⟨_, updateElement_eq hy _, hs.write hy rfl rfl⟩

/-- An element leaves the chain in the store just as it does in the walk. -/
theorem HasChain.detach (hs : s.HasChain t i (n + 1) c h) (hc : c.Represents h es) (he : e ∈ es) :
    ∃ s' c' h', s.detach t i e = .ok s' ∧ c.unlink e h = .ok (c', h') ∧
      s'.HasChain t i n c' h' := by
  obtain ⟨table, ht, hbucket, hentries⟩ := hs.table
  obtain ⟨c', h', k, hunlink, hunlink', hwords, hwords', hlinks, hout⟩ :=
    hc.unlink_congr hs.links he
  obtain ⟨y, hy, -⟩ := Heap.exists_of_links hout
  have hdetach := detach_eq ht hbucket (Nat.ne_of_gt (Nat.zero_lt_of_lt hentries)) hunlink' hy
  refine ⟨_, c', h', hdetach, hunlink, ?_⟩
  have hvalues : ∀ f, (k.get? f).map Element.value = (h'.get? f).map Element.value := fun f => by
    rw [hwords'.map_value, hwords.map_value, hs.values]
  have hchain : HasChain (Store.modifyTable (Store.setChain { s with heap := k } t i c') t
      fun table => { table with entries := table.entries - 1 }) t i n c' h' := by
    have ht' := table?_setChain (s := { s with heap := k }) ht i c'
    refine ⟨⟨{ table.setChain i c' with entries := table.entries - 1 }, ?_, ?_, ?_⟩, hlinks,
      hvalues⟩
    · rw [table?_modifyTable, if_pos rfl, ht', Option.map_some]
      rfl
    · have hi := (Array.getElem?_eq_some_iff.mp hbucket).1
      exact Array.getElem?_setIfInBounds_self_of_lt hi
    · exact Nat.le_sub_one_of_lt hentries
  exact hchain.write hy rfl rfl

/-- So it does if it is taken out only if that is wanted, and held before. -/
theorem HasChain.treat (hs : s.HasChain t i (n + 1) c h) (hc : c.Represents h es) (he : e ∈ es)
    (choice : Choice) :
    ∃ s' c' h', s.treat t i e choice = .ok s' ∧
      c.unlinkIf choice.unhash e h = .ok (c', h') ∧ s'.HasChain t i n c' h' := by
  obtain ⟨x, hx⟩ := hc.get? he
  obtain ⟨s₁, hhold, hs₁⟩ := hs.holdIf hx choice.hold
  simp only [Store.treat, hhold, Fault.ok_bind, Chain.unlinkIf]
  by_cases hunhash : choice.unhash = true
  · obtain ⟨s', c', h', hdetach, hunlink, hs'⟩ := hs₁.detach hc he
    exact ⟨s', c', h', by rw [if_pos hunhash, hdetach], by rw [if_pos hunhash, hunlink], hs'⟩
  · exact ⟨s₁, c, h, by rw [if_neg hunhash, Fault.pure_eq_ok], by rw [if_neg hunhash],
      hs₁.mono (Nat.le_succ n)⟩

/-- What is decided in a walk by a choice that goes by the number of the visit and the value. -/
def decision (choose : Nat → V → Choice) (number : Nat) : Decision V :=
  fun seen _ x => (choose (number + seen.length) x.value).unhash

/-- The walk of a store goes as the one along its links. -/
theorem HasChain.walkFrom {w : Walker V} {choose : Nat → V → Choice} {number steps : Nat}
    (hs : s.HasChain t i rest.length w.chain w.heap)
    (hw : w.Stands (decision choose number) h released before rest)
    (hnodup : (before ++ rest).Nodup) (hsteps : rest.length ≤ steps) :
    ∃ walk w', Store.walkFrom t i choose steps rest.head? (number + before.length) s = .ok walk ∧
      w.after (decision choose number) rest.length = .ok w' ∧
      w'.visits = w.visits ++ walk.visits.map (fun v => (v.element, v.choice.unhash)) ∧
      walk.released = Ledger.takenOut walk.visits ∧
      walk.store.HasChain t i 0 w'.chain w'.heap := by
  induction rest generalizing s w before steps with
  | nil => exact ⟨⟨[], [], s⟩, w, by simp [Store.walkFrom], rfl, by simp, rfl, hs⟩
  | cons e rest ih =>
    obtain ⟨steps, rfl⟩ : ∃ m, steps = m + 1 := Nat.exists_eq_add_one_of_ne_zero (by
      rintro rfl
      simp at hsteps)
    obtain ⟨x, w₁, hx, hfollowing, hunlink, hround, hvisits, hw₁⟩ := hw.round hnodup
    obtain ⟨y, hy, hvalue, -⟩ := hs.exists_get? hx
    set choice := choose (number + before.length) y.value with hchoice
    have hleaves : decision choose number before e x.bare = choice.unhash := by
      rw [hchoice, hvalue]
      rfl
    obtain ⟨s₁, c', h', htreat, hunlink', hs₁⟩ := hs.treat (e := e) hw.chain (by simp) choice
    rw [hleaves, hunlink', Except.ok.injEq, Prod.mk.injEq] at hunlink
    obtain ⟨rfl, rfl⟩ := hunlink
    obtain ⟨walk, w', hwalk, hafter, hrest, hreleased, hs'⟩ :=
      ih hs₁ hw₁ (by simpa using hnodup) (Nat.le_of_succ_le_succ hsteps)
    rw [List.length_append, List.length_singleton, ← Nat.add_assoc] at hwalk
    set visit : Visit V := ⟨number + before.length, e, y.value, y.hash, choice⟩ with hvisit
    have htaken : (if choice.unhash then e :: walk.released else walk.released) =
        Ledger.takenOut (visit :: walk.visits) := by
      simp only [hreleased, Ledger.takenOut, List.filter_cons, hvisit]
      split <;> rfl
    refine ⟨⟨visit :: walk.visits, Ledger.takenOut (visit :: walk.visits), walk.store⟩, w', ?_, ?_,
      ?_, rfl, hs'⟩
    · simp only [List.head?_cons, Store.walkFrom, hs.following hx, hfollowing, Fault.ok_bind,
        Heap.read_eq hy, ← hchoice, htreat, hwalk, Fault.pure_eq_ok, htaken, hvisit]
    · rw [List.length_cons, Walker.after_succ, hround, Fault.ok_bind, hafter]
    · rw [hrest, hvisits, hleaves, List.append_assoc, List.map_cons, List.singleton_append]

end Store

/-! ## A whole walk -/

/-- A walk through a chain, whatever is decided on the way. After each number of rounds up to the
number of elements it stands at the next element, which is linked and has not left, so no link of an
element that has left is followed. After so many rounds as there are elements it is at its end: each
element was visited once, in the order of the chain, and the chain is the list without those that
left, which are released in the order of their visits. And the walk of a store through one of its
buckets is such a walk, if the table counts the elements of the bucket. -/
theorem Chain.Represents.walks_whole_chain {c : Chain} {h : Heap V} {es : List ElementId}
    (hc : c.Represents h es) :
    (∀ (decides : Decision V) (released : List ElementId),
      (∀ k ≤ es.length, ∃ w, (Walker.start c h released).after decides k = .ok w ∧
        w.cursor = es[k]? ∧ w.Stands decides h released (es.take k) (es.drop k) ∧
        ∀ e, w.cursor = some e → e ∈ w.kept ++ es.drop k ∧ e ∉ w.gone) ∧
      ∃ w, (Walker.start c h released).after decides es.length = .ok w ∧ w.cursor = none ∧
        w.Stands decides h released es [] ∧ es.Nodup ∧
        w.chain.Represents w.heap (es.filter fun e => e ∉ w.gone)) ∧
    ∀ (K : Type) (s : Store V K) (t : TableId) (i : Nat) (table : Table V K)
      (choose : Nat → V → Choice) (number steps : Nat), s.heap = h → s.table? t = some table →
        table.buckets[i]? = some c → es.length ≤ table.entries → es.length ≤ steps →
          ∃ walk w, Store.walkFrom t i choose steps c.head number s = .ok walk ∧
            (Walker.start c h []).after (Store.decision choose number) es.length = .ok w ∧
            walk.visits.map (fun v => (v.element, v.choice.unhash)) = w.visits ∧
            walk.released = w.gone ∧ walk.store.chain t i = .ok w.chain ∧
            ∀ e, walk.store.heap.links e = w.heap.links e := by
  refine ⟨fun decides released => ⟨fun k hk => ?rounds, ?ending⟩, ?store⟩
  case rounds =>
    obtain ⟨w, hafter, hw⟩ := hc.exists_stands decides released hk
    have hcursor : w.cursor = es[k]? := by rw [hw.cursor, List.head?_drop]
    refine ⟨w, hafter, hcursor, hw, fun e he => ?_⟩
    have hmem : e ∈ w.kept ++ es.drop k :=
      List.mem_append_right _ (List.mem_of_head? (hw.cursor.symm.trans he))
    have hnodup : (es.take k ++ es.drop k).Nodup := by
      rw [List.take_append_drop]
      exact hc.nodup
    exact ⟨hmem, fun hgone => hw.not_mem_of_gone hnodup hgone hmem⟩
  case ending =>
    obtain ⟨w, hafter, hw⟩ := hc.exists_stands decides released le_rfl
    rw [List.take_length, List.drop_length] at hw
    have hchain := hw.chain
    rw [List.append_nil, Walker.kept_eq_filter (hw.visited ▸ hc.nodup), hw.visited] at hchain
    exact ⟨w, hafter, hw.cursor, hw, hc.nodup, hchain⟩
  case store =>
    rintro K s t i table choose number steps rfl ht hbucket hentries hsteps
    obtain ⟨w, hafter, hw⟩ :=
      hc.exists_stands (Store.decision choose number) [] (Nat.zero_le es.length)
    cases hafter
    have hs : s.HasChain t i es.length c s.heap :=
      ⟨⟨table, ht, hbucket, hentries⟩, fun _ => rfl, fun _ => rfl⟩
    obtain ⟨walk, w', hwalk, hafter, hvisits, hreleased, hs'⟩ :=
      hs.walkFrom hw (by simpa using hc.nodup) hsteps
    obtain ⟨table', ht', hbucket', -⟩ := hs'.table
    refine ⟨walk, w', ?_, hafter, hvisits.symm, ?_, Store.chain_eq ht' hbucket', hs'.links⟩
    · rw [hc.head]
      exact hwalk
    · rw [hreleased, Walker.gone, hvisits]
      simp [Walker.start, Ledger.takenOut, List.filter_map, Function.comp_def]

theorem Store.exists_chain_colliding : ∃ (trace : List (Call Nat Nat × Reply Nat))
    (s : Store Nat Nat) (table : Table Nat Nat) (c : Chain), Runs trace s ∧
      s.table? 0 = some table ∧ table.entries = 3 ∧ table.buckets[7]? = some c ∧
      c.Represents s.heap [2, 1, 0] := by
  obtain ⟨s, h⟩ := exists_runs (collidingCalls .least) collidingReplies rfl
  obtain ⟨l, hs, -, hr⟩ := h.exists_agrees_with (fun l => l.roster? 0)
    (some ⟨.usual id UInt32.ofNat .drop (.plain ""), .least, [(2, 71), (1, 39), (0, 7)]⟩) rfl
  obtain ⟨table, ht, htable⟩ := hs.exists_table hr
  obtain ⟨c, hc, hrep⟩ := htable.chain 7 (by decide)
  exact ⟨_, s, table, c, h, ht, htable.entries, hc, hrep⟩

def allButSecond : Nat → Nat → Choice := fun number _ => ⟨false, number ≠ 1⟩

/-- The first and the last of three elements leave the chain of a table. -/
theorem Chain.Represents.walks_whole_chain_of_colliding :
    ∃ (trace : List (Call Nat Nat × Reply Nat)) (s : Store Nat Nat) (table : Table Nat Nat)
      (c : Chain) (walk : Walk Nat Nat) (w : Walker Nat),
      Store.Runs trace s ∧ s.table? 0 = some table ∧ 3 ≤ table.entries ∧
      table.buckets[7]? = some c ∧ c.Represents s.heap [2, 1, 0] ∧
      Store.walkFrom 0 7 allButSecond 3 c.head 0 s = .ok walk ∧ walk.released = [2, 0] ∧
      (Walker.start c s.heap [5]).after (Store.decision allButSecond 0) 3 = .ok w ∧
      w.visits = [(2, true), (1, false), (0, true)] ∧ w.released = [5, 2, 0] ∧
      w.chain.Represents w.heap [1] := by
  obtain ⟨trace, s, table, c, hruns, ht, hentries, hbucket, hc⟩ := Store.exists_chain_colliding
  obtain ⟨hwalk, hstore⟩ := Chain.Represents.walks_whole_chain hc
  have hvisits {released : List ElementId} {w : Walker Nat}
      (hw : w.Stands (Store.decision allButSecond 0) s.heap released [2, 1, 0] []) :
      w.visits = [(2, true), (1, false), (0, true)] := by
    have hvisited := hw.visited
    have hdecided := hw.decided
    generalize w.visits = visits at hvisited hdecided ⊢
    match visits, hvisited with
    | [(2, first), (1, second), (0, third)], rfl =>
      obtain ⟨_, -, rfl⟩ := hdecided 0 2 first rfl
      obtain ⟨_, -, rfl⟩ := hdecided 1 1 second rfl
      obtain ⟨_, -, rfl⟩ := hdecided 2 0 third rfl
      rfl
  obtain ⟨-, w, hafter, -, hw, -, hchain⟩ := hwalk (Store.decision allButSecond 0) [5]
  obtain ⟨-, w₀, hafter₀, -, hw₀, -⟩ := hwalk (Store.decision allButSecond 0) []
  obtain ⟨walk, w₁, hok, hafter₁, -, hreleased, -⟩ :=
    hstore Nat s 0 7 table allButSecond 0 3 rfl ht hbucket hentries.ge le_rfl
  obtain rfl := Except.ok.inj (hafter₀.symm.trans hafter₁)
  have hgone : w.gone = [2, 0] := by rw [Walker.gone, hvisits hw]; rfl
  have hgone₀ : w₀.gone = [2, 0] := by rw [Walker.gone, hvisits hw₀]; rfl
  rw [hgone] at hchain
  exact ⟨trace, s, table, c, walk, w, hruns, ht, hentries.ge, hbucket, hc, hok,
    hreleased.trans hgone₀, hafter, hvisits hw, by rw [hw.released, hgone]; rfl, hchain⟩

end HashIndex
