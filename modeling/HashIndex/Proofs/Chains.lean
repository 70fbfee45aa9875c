import HashIndex.Proofs.Thread
import Mathlib.Data.Set.Insert
import Mathlib.Logic.Pairwise

/-!
# Chains that share a heap

Several chains live on one heap, and no element is in two of them. Whatever is done with one of them
is what is done with a list: the others keep their elements and their order, and an element that has
left one chain can be linked into any other. So a family of chains behaves like a family of lists
for as long as one likes.

## Main definitions

* `Chain.Iter.yields`: an iterator that is asked again and again.
* `Chains`, `Chains.Operation`: a family of chains on one heap, and what is done with one of them.
* `Chains.Operation.onChains`, `Chains.Operation.onLists`: the same on chains and on lists.
* `Chains.Represents`: a family of chains is a family of lists.

## Main statements

* `Chain.Represents.yields`: an iterator yields the list, and says how much of it is still to come.
* `Chains.Represents.follows`: one operation.
* `Chains.Represents.refines_lists`: any sequence of them.
-/

namespace HashIndex

variable {V ι : Type}

namespace Heap

variable {h h' : Heap V} {e : ElementId}

/-- An element that keeps its words and its links is the same. -/
theorem SameWords.get?_eq (hwords : h.SameWords h') (hlinks : h'.links e = h.links e) :
    h'.get? e = h.get? e := by
  have hbare := hwords.bare e
  unfold links at hlinks
  cases hx : h.get? e with
  | none =>
    rw [hx, Option.map_none, Option.map_eq_none_iff] at hbare
    exact hbare
  | some x =>
    obtain ⟨y, hy, hwords⟩ := hwords.exists_get? hx
    rw [hx, hy, Option.map_some, Option.map_some, Option.some.injEq, Prod.mk.injEq] at hlinks
    obtain ⟨hvalue, howner, hhash, hcount, hrelease⟩ := Element.bare_eq_iff.mp hwords
    obtain ⟨hprev, hnext⟩ := hlinks
    rw [hy]
    cases x
    cases y
    simp_all

theorem SameWords.map_value (hwords : h.SameWords h') (e : ElementId) :
    (h'.get? e).map Element.value = (h.get? e).map Element.value := by
  simpa [Option.map_map, Function.comp_def, Element.bare] using
    congrArg (Option.map Element.value) (hwords.bare e)

end Heap

/-! ## Iteration -/

namespace Chain

variable {c : Chain} {h : Heap V} {es : List ElementId}

/-- What an iterator yields when it is asked a number of times, and the iterator after that. -/
def Iter.yields : Nat → Iter → Heap V → Except Fault (List (Option ElementId) × Iter)
  | 0, i, _ => .ok ([], i)
  | n + 1, i, h => do
    match ← i.advance h with
    | none =>
      let (rest, j) ← yields n i h
      return (none :: rest, j)
    | some (e, _, j) =>
      let (rest, k) ← yields n j h
      return (some e :: rest, k)

/-- What an iterator yields when it is asked a number of times, in closed form. -/
theorem Iter.yields_eq {i : Iter} {before : Option ElementId} (hi : i.next = es.head?)
    (hremaining : i.remaining = es.length) (ht : h.Threads before es none) (n : Nat) :
    i.yields n h = .ok ((List.range n).map fun k => es[k]?, ⟨es[n]?, es.length - n⟩) := by
  induction n generalizing i es before with
  | zero =>
    obtain ⟨next, remaining⟩ := i
    subst hi hremaining
    simp [yields, List.head?_eq_getElem?]
  | succ n ih =>
    rw [List.range_succ_eq_map, List.map_cons, List.map_map]
    cases es with
    | nil =>
      have hadvance : i.advance h = .ok none := by
        simp only [Iter.advance, hi, List.head?_nil, Fault.pure_eq_ok]
      -- an iterator at its end stays where it is
      simp only [yields, hadvance, Fault.ok_bind, ih hi hremaining ht, Fault.pure_eq_ok]
      simp [Function.comp_def]
    | cons e es =>
      obtain ⟨x, hx⟩ := ht.get? (List.mem_cons_self ..)
      have hadvance := Iter.advance_cons hi hremaining ht hx
      have hrest := ih (i := ⟨es.head?, es.length⟩) rfl rfl ht.2
      simp only [yields, hadvance, hrest, Fault.ok_bind, Fault.pure_eq_ok]
      simp [Function.comp_def]

/-- An iterator yields the elements of the list one by one, and knows how many are still to come. -/
theorem Represents.yields (hc : c.Represents h es) (n : Nat) :
    c.iter.yields n h = .ok ((List.range n).map fun k => es[k]?, ⟨es[n]?, es.length - n⟩) :=
  Iter.yields_eq hc.head hc.length hc.threads n

/-- The link of an element leads to the one that comes after it in the list. -/
theorem Represents.following_of_mem {e : ElementId} (hc : c.Represents h es) (he : e ∈ es) :
    Chain.following e h = .ok es[es.idxOf e + 1]? := by
  obtain ⟨as, bs, rfl⟩ := List.append_of_mem he
  have hidx : (as ++ e :: bs).idxOf e = as.length := by
    rw [List.idxOf_append_of_notMem hc.not_mem_before, List.idxOf_cons_self, Nat.add_zero]
  rw [hc.following, hidx]
  simp [List.head?_eq_getElem?, List.getElem?_append_right]

end Chain

/-! ## Families of chains -/

structure Chains (ι V : Type) where
  chain : ι → Chain
  heap : Heap V

namespace Chains

/-- What is done with one chain of a family. -/
inductive Operation (ι : Type) where
  | pushFront (i : ι) (e : ElementId)
  | unlink (i : ι) (e : ElementId)
  | popFront (i : ι)
  | next (i : ι) (e : ElementId)
  /-- Ask a new iterator a number of times. -/
  | iterate (i : ι) (times : Nat)

inductive Answer where
  | done
  /-- The element that was found, if there is one. -/
  | element (e : Option ElementId)
  /-- What an iterator yielded, and how many elements it has still to come. -/
  | yielded (es : List (Option ElementId)) (remaining : Nat)
deriving DecidableEq, Repr

namespace Operation

def index : Operation ι → ι
  | pushFront i _ | unlink i _ | popFront i | next i _ | iterate i _ => i

/-- What has to hold for an operation: an element that is pushed is one of `nodes` and in no chain,
and one that is unlinked, or whose link is followed, is in the chain. -/
def Permitted (nodes : Set ElementId) (lists : ι → List ElementId) : Operation ι → Prop
  | pushFront _ e => e ∈ nodes ∧ ∀ j, e ∉ lists j
  | unlink i e | next i e => e ∈ lists i
  | popFront _ | iterate _ _ => True

variable [DecidableEq ι]

/-- An operation on chains. -/
def onChains (s : Chains ι V) : Operation ι → Except Fault (Answer × Chains ι V)
  | pushFront i e => do
    let (c, heap) ← (s.chain i).pushFront e s.heap
    return (.done, ⟨Function.update s.chain i c, heap⟩)
  | unlink i e => do
    let (c, heap) ← (s.chain i).unlink e s.heap
    return (.done, ⟨Function.update s.chain i c, heap⟩)
  | popFront i => do
    let (e, c, heap) ← (s.chain i).popFront s.heap
    return (.element e, ⟨Function.update s.chain i c, heap⟩)
  | next _ e => do
    let f ← Chain.following e s.heap
    return (.element f, s)
  | iterate i times => do
    let (es, j) ← (s.chain i).iter.yields times s.heap
    return (.yielded es j.remaining, s)

def onLists (lists : ι → List ElementId) : Operation ι → Answer × (ι → List ElementId)
  | pushFront i e => (.done, Function.update lists i (e :: lists i))
  | unlink i e => (.done, Function.update lists i ((lists i).erase e))
  | popFront i => (.element (lists i).head?, Function.update lists i (lists i).tail)
  | next i e => (.element (lists i)[(lists i).idxOf e + 1]?, lists)
  | iterate i times =>
    (.yielded ((List.range times).map fun k => (lists i)[k]?) ((lists i).length - times), lists)

end Operation

/-- A family of chains is a family of lists of elements of `nodes`. No element is in two lists, and
those that are in none have no neighbours. -/
structure Represents (s : Chains ι V) (nodes : Set ElementId) (lists : ι → List ElementId) :
    Prop where
  chain : ∀ i, (s.chain i).Represents s.heap (lists i)
  disjoint : Pairwise fun i j => (lists i).Disjoint (lists j)
  subset : ∀ i, ∀ e ∈ lists i, e ∈ nodes
  loose : ∀ e ∈ nodes, (∀ i, e ∉ lists i) → s.heap.links e = some (none, none)

/-- An operation has made of the lists what it makes of lists, and nothing else has changed: no
other chain, no element outside the chain, and nothing but links of those that are in it. Whatever
has left the chain has no neighbours, and may be linked into any chain. -/
structure Follows (s s' : Chains ι V) (nodes : Set ElementId) (i : ι)
    (lists lists' : ι → List ElementId) : Prop where
  represents : s'.Represents nodes lists'
  words : s.heap.SameWords s'.heap
  elements : ∀ e, e ∉ lists i → e ∉ lists' i → s'.heap.get? e = s.heap.get? e
  chains : ∀ j ≠ i, s'.chain j = s.chain j ∧ lists' j = lists j
  left : ∀ e ∈ lists i, e ∉ lists' i →
    s'.heap.links e = some (none, none) ∧ ∀ j, (Operation.pushFront j e).Permitted nodes lists'
  unchanged : lists' i = lists i → s' = s

variable {s : Chains ι V} {nodes : Set ElementId} {lists : ι → List ElementId} {i : ι} {c : Chain}
  {h : Heap V} {es : List ElementId} {op : Operation ι}

theorem Represents.follows_refl (hs : s.Represents nodes lists) (i : ι) :
    s.Follows s nodes i lists lists :=
  ⟨hs, .refl _, fun _ _ _ => rfl, fun _ _ => ⟨rfl, rfl⟩, fun _ he he' => absurd he he',
    fun _ => rfl⟩

/-- An element without neighbours may be one of the elements that the lists draw from. -/
theorem Represents.insert (hs : s.Represents nodes lists) {e : ElementId}
    (he : s.heap.links e = some (none, none)) : s.Represents (insert e nodes) lists where
  chain := hs.chain
  disjoint := hs.disjoint
  subset i f hf := Set.mem_insert_of_mem e (hs.subset i f hf)
  loose f hf hnone := (Set.mem_insert_iff.mp hf).elim (fun heq => heq ▸ he)
    fun hf => hs.loose f hf hnone

variable [DecidableEq ι]

/-- A chain changes to another list, with elements that were in it or in none. -/
theorem Represents.update (hs : s.Represents nodes lists) (hc : c.Represents h es)
    (hmem : ∀ e ∈ es, e ∈ lists i ∨ e ∈ nodes ∧ ∀ j, e ∉ lists j)
    (hlinks : ∀ e, e ∉ lists i → e ∉ es → h.links e = s.heap.links e)
    (hleft : ∀ e ∈ lists i, e ∉ es → h.links e = some (none, none)) :
    Represents ⟨Function.update s.chain i c, h⟩ nodes (Function.update lists i es) := by
  have hother : ∀ j ≠ i, ∀ e ∈ lists j, e ∉ lists i ∧ e ∉ es := fun j hj e he =>
    have hout : e ∉ lists i := fun hi => hs.disjoint hj he hi
    ⟨hout, fun hes => (hmem e hes).elim hout fun h => h.2 j he⟩
  constructor
  case chain =>
    intro j
    by_cases hj : j = i
    · subst hj
      simpa using hc
    · simp only [Function.update_of_ne hj]
      exact (hs.chain j).congr fun e he =>
        hlinks e (hother j hj e he).1 (hother j hj e he).2
  case disjoint =>
    intro j k hjk
    by_cases hj : j = i
    · subst hj
      rw [Function.update_self, Function.update_of_ne (Ne.symm hjk)]
      exact fun e he hk => (hother k (Ne.symm hjk) e hk).2 he
    · rw [Function.update_of_ne hj]
      by_cases hk : k = i
      · subst hk
        rw [Function.update_self]
        exact fun e he => (hother j hj e he).2
      · rw [Function.update_of_ne hk]
        exact hs.disjoint hjk
  case subset =>
    intro j e he
    by_cases hj : j = i
    · subst hj
      rw [Function.update_self] at he
      exact (hmem e he).elim (hs.subset j e) And.left
    · rw [Function.update_of_ne hj] at he
      exact hs.subset j e he
  case loose =>
    intro e he hnone
    have hes : e ∉ es := by simpa using hnone i
    by_cases hi : e ∈ lists i
    · exact hleft e hi hes
    · refine (hlinks e hi hes).trans (hs.loose e he fun j => ?_)
      by_cases hj : j = i
      · exact hj ▸ hi
      · simpa [hj] using hnone j

/-- So it does if an operation on the chain says that it does nothing else. -/
theorem Represents.follows_update (hs : s.Represents nodes lists) (hc : c.Represents h es)
    (hmem : ∀ e ∈ es, e ∈ lists i ∨ e ∈ nodes ∧ ∀ j, e ∉ lists j) (hwords : s.heap.SameWords h)
    (hlinks : ∀ e, e ∉ lists i → e ∉ es → h.links e = s.heap.links e)
    (hleft : ∀ e ∈ lists i, e ∉ es → h.links e = some (none, none)) (hne : es ≠ lists i) :
    s.Follows ⟨Function.update s.chain i c, h⟩ nodes i lists (Function.update lists i es) where
  represents := hs.update hc hmem hlinks hleft
  words := hwords
  elements e he hes := hwords.get?_eq (hlinks e he (by simpa using hes))
  chains j hj := ⟨Function.update_of_ne hj _ _, Function.update_of_ne hj _ _⟩
  left e he hes := by
    rw [Function.update_self] at hes
    refine ⟨hleft e he hes, fun k => ⟨hs.subset i e he, fun j => ?_⟩⟩
    by_cases hj : j = i
    · subst hj
      simpa using hes
    · rw [Function.update_of_ne hj]
      exact fun hej => hs.disjoint hj hej he
  unchanged heq := absurd (by simpa using heq) hne

/-- An operation on chains does what it does on lists. -/
theorem Represents.follows (hs : s.Represents nodes lists) (hop : op.Permitted nodes lists) :
    ∃ s', op.onChains s = .ok ((op.onLists lists).1, s') ∧
      s.Follows s' nodes op.index lists (op.onLists lists).2 := by
  cases op with
  | pushFront i e =>
    obtain ⟨hnode, hnone⟩ := hop
    obtain ⟨x, hx, hprev, hnext⟩ := Heap.exists_of_links (hs.loose e hnode hnone)
    obtain ⟨h, hpush, hc, hwords, hlinks⟩ := (hs.chain i).pushFront hx hprev hnext (hnone i)
    refine ⟨_, by simp only [Operation.onChains, hpush, Fault.ok_bind, Fault.pure_eq_ok]; rfl, ?_⟩
    refine hs.follows_update hc (fun f hf => ?_) hwords (fun f _ => hlinks f)
      (fun f hf hout => absurd (List.mem_cons_of_mem e hf) hout) (List.cons_ne_self e _)
    rcases List.mem_cons.mp hf with rfl | hf
    · exact .inr ⟨hnode, hnone⟩
    · exact .inl hf
  | unlink i e =>
    have he : e ∈ lists i := hop
    obtain ⟨c, h, hunlink, hc, hwords, hout, hlinks⟩ := (hs.chain i).unlink he
    refine ⟨_, by simp only [Operation.onChains, hunlink, Fault.ok_bind, Fault.pure_eq_ok]; rfl, ?_⟩
    refine hs.follows_update hc (fun f hf => .inl (List.mem_of_mem_erase hf)) hwords
      (fun f hf _ => hlinks f hf) (fun f hf hgone => ?_) fun heq => ?_
    · obtain rfl : f = e := by
        by_contra hfe
        exact hgone ((List.mem_erase_of_ne hfe).mpr hf)
      exact hout
    · exact (hs.chain i).nodup.not_mem_erase (heq ▸ he)
  | popFront i =>
    cases hlist : lists i with
    | nil =>
      have hpop := (hlist ▸ hs.chain i).popFront_nil
      refine ⟨s, ?_, ?_⟩
      · simp only [Operation.onChains, hpop, Fault.ok_bind, Fault.pure_eq_ok,
          Function.update_eq_self, Operation.onLists, hlist, List.head?_nil]
      · have hsame : Function.update lists i (lists i).tail = lists := by
          rw [hlist, List.tail_nil, ← hlist, Function.update_eq_self]
        simpa only [Operation.onLists, Operation.index, hsame] using hs.follows_refl i
    | cons e es =>
      obtain ⟨c, h, hpop, hc, hwords, hout, hlinks⟩ := (hlist ▸ hs.chain i).popFront_cons
      refine ⟨⟨Function.update s.chain i c, h⟩, ?_, ?_⟩
      · simp only [Operation.onChains, hpop, Fault.ok_bind, Fault.pure_eq_ok, Operation.onLists,
          hlist, List.head?_cons]
      · simp only [Operation.onLists, hlist, List.tail_cons]
        refine hs.follows_update hc (fun f hf => .inl (by simp [hlist, hf])) hwords
          (fun f hf _ => hlinks f (hlist ▸ hf)) (fun f hf hgone => ?_) fun heq => ?_
        · obtain rfl : f = e := by simpa [hlist, hgone] using hf
          exact hout
        · exact List.cons_ne_self e es (hlist.symm.trans heq.symm)
  | next i e =>
    have he : e ∈ lists i := hop
    refine ⟨s, ?_, hs.follows_refl i⟩
    simp only [Operation.onChains, (hs.chain i).following_of_mem he, Fault.ok_bind,
      Fault.pure_eq_ok, Operation.onLists]
  | iterate i times =>
    refine ⟨s, ?_, hs.follows_refl i⟩
    simp only [Operation.onChains, (hs.chain i).yields, Fault.ok_bind, Fault.pure_eq_ok,
      Operation.onLists]

/-! ## Sequences of operations -/

def perform : List (Operation ι) → Chains ι V → Except Fault (List Answer × Chains ι V)
  | [], s => .ok ([], s)
  | op :: ops, s => do
    let (answer, s) ← op.onChains s
    let (answers, s) ← perform ops s
    return (answer :: answers, s)

def performOnLists : List (Operation ι) → (ι → List ElementId) →
    List Answer × (ι → List ElementId)
  | [], lists => ([], lists)
  | op :: ops, lists =>
    let (answer, lists) := op.onLists lists
    let (answers, lists) := performOnLists ops lists
    (answer :: answers, lists)

/-- Each operation of a sequence is permitted when its turn comes. -/
def AllPermitted (nodes : Set ElementId) : List (Operation ι) → (ι → List ElementId) → Prop
  | [], _ => True
  | op :: ops, lists => op.Permitted nodes lists ∧ AllPermitted nodes ops (op.onLists lists).2

/-- Operations that are permitted in their turn do on chains what they do on lists. -/
theorem Represents.perform {ops : List (Operation ι)} (hs : s.Represents nodes lists)
    (hops : AllPermitted nodes ops lists) :
    ∃ s', s.perform ops = .ok ((performOnLists ops lists).1, s') ∧
      s'.Represents nodes (performOnLists ops lists).2 ∧ s.heap.SameWords s'.heap ∧
      ∀ e ∉ nodes, s'.heap.get? e = s.heap.get? e := by
  induction ops generalizing s lists with
  | nil => exact ⟨s, rfl, hs, .refl _, fun _ _ => rfl⟩
  | cons op ops ih =>
    obtain ⟨hop, hops⟩ := hops
    obtain ⟨s₁, hok, hfollows⟩ := hs.follows hop
    obtain ⟨s', hrest, hs', hwords, hothers⟩ := ih hfollows.represents hops
    refine ⟨s', ?_, hs', hfollows.words.trans hwords, fun e he => (hothers e he).trans ?_⟩
    · simp only [Chains.perform, hok, hrest, Fault.ok_bind, Fault.pure_eq_ok, performOnLists]
    · exact hfollows.elements e (fun hmem => he (hs.subset _ e hmem))
        fun hmem => he (hfollows.represents.subset _ e hmem)

/-- A family of chains is used as a family of lists. Each operation does to its chain what it does
to its list, gives the same answer, and leaves everything else alone; any element without neighbours
may be pushed. So does any sequence of operations. -/
theorem Represents.refines_lists (hs : s.Represents nodes lists) :
    (∀ op : Operation ι, op.Permitted nodes lists →
      ∃ s', op.onChains s = .ok ((op.onLists lists).1, s') ∧
        s.Follows s' nodes op.index lists (op.onLists lists).2) ∧
    (∀ e, s.heap.links e = some (none, none) → s.Represents (Insert.insert e nodes) lists) ∧
    ∀ ops : List (Operation ι), AllPermitted nodes ops lists →
      ∃ s', s.perform ops = .ok ((performOnLists ops lists).1, s') ∧
        s'.Represents nodes (performOnLists ops lists).2 ∧ s.heap.SameWords s'.heap ∧
        ∀ e ∉ nodes, s'.heap.get? e = s.heap.get? e :=
  ⟨fun _ => hs.follows, fun _ => hs.insert, fun _ => hs.perform⟩

/-- Two empty chains, and three elements that are in none. -/
def loose : Chains Bool Nat where
  chain _ := .empty
  heap := (((Heap.empty.allocate 7).2.allocate 8).2.allocate 9).2

/-- The three elements are linked, two of them into one chain and one into the other; the last one
of the first chain moves to the second, and the first chain is emptied. -/
def relinking : List (Operation Bool) :=
  [.pushFront false 0, .pushFront false 1, .pushFront true 2, .next false 1, .unlink false 0,
    .pushFront true 0, .iterate true 3, .popFront false, .popFront false]

/-- An element moves from one chain to another, and the first chain is emptied. -/
theorem refines_lists_of_relinking :
    loose.Represents {0, 1, 2} (fun _ => []) ∧ AllPermitted {0, 1, 2} relinking (fun _ => []) ∧
      ∃ s', loose.perform relinking = .ok ([.done, .done, .done, .element (some 0), .done, .done,
          .yielded [some 0, some 2, none] 0, .element (some 1), .element none], s') ∧
        (s'.chain false).Represents s'.heap [] ∧ (s'.chain true).Represents s'.heap [0, 2] := by
  have hs : loose.Represents {0, 1, 2} (fun _ => []) := by
    refine ⟨fun _ => Chain.represents_empty _, fun _ _ _ _ he => absurd he List.not_mem_nil,
      fun _ _ he => absurd he List.not_mem_nil, ?_⟩
    rintro e (rfl | rfl | rfl) - <;> rfl
  have hpermitted : AllPermitted {0, 1, 2} relinking (fun _ => []) := by
    simp [AllPermitted, relinking, Operation.Permitted, Operation.onLists]
  obtain ⟨-, -, hperform⟩ := Represents.refines_lists hs
  obtain ⟨s', hok, hs', -⟩ := hperform relinking hpermitted
  exact ⟨hs, hpermitted, s', hok, hs'.chain false, hs'.chain true⟩

end Chains

end HashIndex
