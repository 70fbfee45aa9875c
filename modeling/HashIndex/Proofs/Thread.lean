import HashIndex.Chain
import Mathlib.Data.List.Basic
import Mathlib.Data.List.Nodup
import Mathlib.Data.List.Perm.Subperm

/-!
# Chains as lists

The links of the elements of a chain run through the heap like a thread. A chain represents a list
of elements if its head and its length are those of the list and the links lead through it, forth
and back. Each operation on a chain is an operation on the list that it represents; it changes the
links of elements of the chain and nothing else.

## Main definitions

* `Heap.Threads`: the links lead through a list.
* `Chain.Represents`: a chain is a list of elements.
* `Heap.SameWords`: two heaps that differ in links only.

## Main statements

* `Chain.Represents.pushFront`, `Chain.Represents.unlink`, `Chain.Represents.popFront`: elements
  come and go as in a list.
* `Chain.Represents.elements`, `Chain.Represents.find?`: the iterator yields the list.
-/

namespace HashIndex

variable {V : Type}

def Element.bare (x : Element V) : Element V := { x with prev := none, next := none }

theorem Element.bare_eq_iff {x y : Element V} :
    y.bare = x.bare ↔ y.value = x.value ∧ y.owner = x.owner ∧ y.hash = x.hash ∧
      y.count = x.count ∧ y.release = x.release := by
  simp [bare]

namespace Heap

variable {h h' : Heap V} {e f : ElementId} {x y : Element V}

theorem get?_write (hx : h.get? e = some x) (y : Element V) (f : ElementId) :
    (h.write e y).get? f = if f = e then some y else h.get? f := by
  by_cases hf : f = e
  · subst hf
    simp [get?_write_self y (lt_size_of_get? hx)]
  · simp [hf, get?_write_of_ne y (Ne.symm hf)]

@[simp] theorem write_write (h : Heap V) (e : ElementId) (x y : Element V) :
    (h.write e x).write e y = h.write e y := by
  simp [write]

theorem read_eq (hx : h.get? e = some x) : h.read e = .ok x := read_eq_ok_iff.mpr hx

theorem update_eq (hx : h.get? e = some x) (f : Element V → Element V) :
    h.update e f = .ok (h.write e (f x)) := by
  simp [update, read_eq hx, bind, Except.bind, pure, Except.pure]

theorem updateM_eq (hx : h.get? e = some x) {f : Element V → Except Fault (Element V)}
    (hf : f x = .ok y) : h.updateM e f = .ok (h.write e y) := by
  simp [updateM, read_eq hx, hf, bind, Except.bind, pure, Except.pure]

def links (h : Heap V) (e : ElementId) : Option (Option ElementId × Option ElementId) :=
  (h.get? e).map fun x => (x.prev, x.next)

theorem links_eq (hx : h.get? e = some x) : h.links e = some (x.prev, x.next) := by
  simp [links, hx]

theorem links_write (hx : h.get? e = some x) (y : Element V) (f : ElementId) :
    (h.write e y).links f = if f = e then some (y.prev, y.next) else h.links f := by
  unfold links
  rw [get?_write hx]
  split <;> rfl

theorem links_write_same (hx : h.get? e = some x) (hy : (y.prev, y.next) = (x.prev, x.next))
    (f : ElementId) : (h.write e y).links f = h.links f := by
  rw [links_write hx, hy]
  split
  · subst f
    exact (links_eq hx).symm
  · rfl

theorem exists_of_links {p : Option ElementId × Option ElementId} (hp : h.links e = some p) :
    ∃ x, h.get? e = some x ∧ x.prev = p.1 ∧ x.next = p.2 := by
  unfold links at hp
  obtain ⟨x, hx, rfl⟩ := Option.map_eq_some_iff.mp hp
  exact ⟨x, hx, rfl, rfl⟩

/-- The elements at places that are given, as far as they live. -/
def pick (h : Heap V) (es : List ElementId) : List (ElementId × Element V) :=
  es.filterMap fun e => (h.get? e).map fun x => (e, x)

theorem pick_cons (hx : h.get? e = some x) (es : List ElementId) :
    h.pick (e :: es) = (e, x) :: h.pick es := by
  simp [pick, hx]

/-- Two heaps with the same elements, up to the links. -/
structure SameWords (h h' : Heap V) : Prop where
  size : h'.size = h.size
  bare : ∀ e, (h'.get? e).map Element.bare = (h.get? e).map Element.bare

theorem SameWords.refl (h : Heap V) : h.SameWords h := ⟨rfl, fun _ => rfl⟩

theorem SameWords.trans {h'' : Heap V} (hs : h.SameWords h') (ht : h'.SameWords h'') :
    h.SameWords h'' :=
  ⟨ht.size.trans hs.size, fun e => (ht.bare e).trans (hs.bare e)⟩

theorem SameWords.write (hx : h.get? e = some x) (hy : y.bare = x.bare) :
    h.SameWords (h.write e y) := by
  refine ⟨size_write h e y, fun f => ?_⟩
  rw [get?_write hx]
  split
  · subst f
    simp [hx, hy]
  · rfl

theorem SameWords.exists_get? (hs : h.SameWords h') (hx : h.get? e = some x) :
    ∃ y, h'.get? e = some y ∧ y.bare = x.bare := by
  have hbare := hs.bare e
  rw [hx, Option.map_some, Option.map_eq_some_iff] at hbare
  exact hbare

/-- The links lead through a list, from an element before it to one after it and back. -/
def Threads (h : Heap V) : Option ElementId → List ElementId → Option ElementId → Prop
  | _, [], _ => True
  | before, e :: es, after =>
    h.links e = some (before, es.head?.or after) ∧ h.Threads (some e) es after

section Threads

variable {before after : Option ElementId} {es fs : List ElementId}

theorem Threads.congr (hlinks : ∀ e ∈ es, h'.links e = h.links e)
    (ht : h.Threads before es after) : h'.Threads before es after := by
  induction es generalizing before with
  | nil => trivial
  | cons e es ih =>
    obtain ⟨hhead, htail⟩ := ht
    refine ⟨(hlinks e (by simp)).trans hhead, ih (fun f hf => hlinks f (by simp [hf])) htail⟩

theorem threads_append :
    h.Threads before (es ++ fs) after ↔
      h.Threads before es (fs.head?.or after) ∧ h.Threads (es.getLast?.or before) fs after := by
  induction es generalizing before with
  | nil => simp [Threads]
  | cons e es ih =>
    have hhead : (es ++ fs).head?.or after = es.head?.or (fs.head?.or after) := by
      cases es <;> simp
    have hlast : (e :: es).getLast?.or before = es.getLast?.or (some e) := by
      rw [List.getLast?_cons]
      cases es.getLast? <;> simp
    simp only [List.cons_append, Threads, hhead, hlast, ih, and_assoc]

theorem Threads.get? (ht : h.Threads before es after) (he : e ∈ es) :
    ∃ x, h.get? e = some x := by
  induction es generalizing before with
  | nil => simp at he
  | cons f es ih =>
    obtain ⟨hhead, htail⟩ := ht
    rcases List.mem_cons.mp he with rfl | he
    · obtain ⟨x, hx, -⟩ := exists_of_links hhead
      exact ⟨x, hx⟩
    · exact ih htail he

/-- The thread is led to another element at its end, by the links of its last element. -/
theorem Threads.redirect_end {before after after' : Option ElementId} {es : List ElementId}
    (hnodup : es.Nodup) (ht : h.Threads before es after)
    (hlast : ∀ e p, es.getLast? = some e → h.links e = some p → h'.links e = some (p.1, after'))
    (hothers : ∀ e ∈ es, es.getLast? ≠ some e → h'.links e = h.links e) :
    h'.Threads before es after' := by
  rcases List.eq_nil_or_concat' es with rfl | ⟨es, e, rfl⟩
  · trivial
  · obtain ⟨hinit, hend, -⟩ := threads_append.mp ht
    refine threads_append.mpr ⟨hinit.congr fun f hf => hothers f (by simp [hf]) ?_, ?_, trivial⟩
    · have hne : f ≠ e := by
        rintro rfl
        simp [List.nodup_append] at hnodup
        exact hnodup.2 _ hf rfl
      simpa using Ne.symm hne
    · simpa using hlast e _ (by simp) hend

/-- The thread comes from another element at its start, by the links of its first element. -/
theorem Threads.redirect_start {before before' after : Option ElementId} {es : List ElementId}
    (hnodup : es.Nodup) (ht : h.Threads before es after)
    (hfirst : ∀ e p, es.head? = some e → h.links e = some p → h'.links e = some (before', p.2))
    (hothers : ∀ e ∈ es, es.head? ≠ some e → h'.links e = h.links e) :
    h'.Threads before' es after := by
  cases es with
  | nil => trivial
  | cons e es =>
    obtain ⟨hhead, htail⟩ := ht
    refine ⟨hfirst e _ rfl hhead, htail.congr fun f hf => hothers f (by simp [hf]) ?_⟩
    rintro hf'
    simp only [List.head?_cons, Option.some.injEq] at hf'
    subst hf'
    exact (List.nodup_cons.mp hnodup).1 hf

/-- An element between two lists is passed by: its neighbours lead to each other, it has none. -/
structure PassesBy (h h' : Heap V) (as : List ElementId) (e : ElementId) (bs : List ElementId) :
    Prop where
  element : h'.links e = some (none, none)
  before : ∀ b p, as.getLast? = some b → h.links b = some p → h'.links b = some (p.1, bs.head?)
  after : ∀ a p, bs.head? = some a → h.links a = some p → h'.links a = some (as.getLast?, p.2)
  others : ∀ f, f ≠ e → as.getLast? ≠ some f → bs.head? ≠ some f → h'.links f = h.links f

section PassesBy

variable {as bs : List ElementId} {f : ElementId}

theorem PassesBy.links_eq (hp : h.PassesBy h' as e bs) (hf : f ∉ as ++ e :: bs) :
    h'.links f = h.links f := by
  simp only [List.mem_append, List.mem_cons, not_or] at hf
  exact hp.others f hf.2.1 (fun hb => hf.1 (List.mem_of_getLast? hb))
    fun ha => hf.2.2 (List.mem_of_head? ha)

theorem PassesBy.threads (hp : h.PassesBy h' as e bs) (ht : h.Threads none (as ++ e :: bs) none)
    (hnodup : (as ++ e :: bs).Nodup) : h'.Threads none (as ++ bs) none := by
  obtain ⟨htas, -, htbs⟩ := threads_append.mp ht
  obtain ⟨has, hebs, hdisj⟩ := List.nodup_append.mp hnodup
  obtain ⟨hebs, hbs⟩ := List.nodup_cons.mp hebs
  have hne : ∀ f ∈ as, f ∉ e :: bs := fun f hf hf' => hdisj f hf f hf' rfl
  refine threads_append.mpr ⟨htas.redirect_end has ?_ ?_, htbs.redirect_start hbs ?_ ?_⟩
  · intro b p hb hlinks
    simpa using hp.before b p hb hlinks
  · intro f hf hb
    have hout := hne f hf
    simp only [List.mem_cons, not_or] at hout
    exact hp.others f hout.1 hb fun ha => hout.2 (List.mem_of_head? ha)
  · intro a p ha hlinks
    simpa using hp.after a p ha hlinks
  · intro f hf ha
    refine hp.others f (fun heq => hebs (heq ▸ hf)) (fun hb => ?_) ha
    exact hne f (List.mem_of_getLast? hb) (List.mem_cons_of_mem _ hf)

end PassesBy

end Threads

end Heap

namespace Chain

variable {c : Chain} {h h' : Heap V} {as bs es : List ElementId} {e : ElementId} {x : Element V}

/-- A chain is a list of elements: its head and its length are those of the list, no element comes
twice, and the links lead through it. -/
structure Represents (c : Chain) (h : Heap V) (es : List ElementId) : Prop where
  head : c.head = es.head?
  length : c.length = es.length
  nodup : es.Nodup
  threads : h.Threads none es none

theorem represents_empty (h : Heap V) : Chain.empty.Represents h [] :=
  ⟨rfl, rfl, List.nodup_nil, trivial⟩

theorem Represents.congr (hlinks : ∀ e ∈ es, h'.links e = h.links e) (hc : c.Represents h es) :
    c.Represents h' es :=
  ⟨hc.head, hc.length, hc.nodup, hc.threads.congr hlinks⟩

theorem Represents.get? (hc : c.Represents h es) (he : e ∈ es) : ∃ x, h.get? e = some x :=
  hc.threads.get? he

theorem Represents.length_le_size (hc : c.Represents h es) : es.length ≤ h.size := by
  have hsub : es ⊆ List.range h.size := by
    intro e he
    obtain ⟨x, hx⟩ := hc.get? he
    exact List.mem_range.mpr (Heap.lt_size_of_get? hx)
  simpa using (hc.nodup.subperm hsub).length_le

/-- An element comes only once. -/
theorem Represents.not_mem_before (hc : c.Represents h (as ++ e :: bs)) : e ∉ as :=
  fun he => (List.nodup_append.mp hc.nodup).2.2 e he e (List.mem_cons_self ..) rfl

theorem Represents.erase_eq (hc : c.Represents h (as ++ e :: bs)) :
    (as ++ e :: bs).erase e = as ++ bs := by
  rw [List.erase_append_right _ hc.not_mem_before, List.erase_cons_head]

/-! ## Coming and going -/

/-- An element without neighbours is put in front of a list. -/
theorem Represents.pushFront (hc : c.Represents h es) (hx : h.get? e = some x)
    (hprev : x.prev = none) (hnext : x.next = none) (he : e ∉ es) :
    ∃ h', c.pushFront e h = .ok (⟨some e, c.length + 1⟩, h') ∧
      Represents ⟨some e, c.length + 1⟩ h' (e :: es) ∧ h.SameWords h' ∧
      ∀ f, f ∉ e :: es → h'.links f = h.links f := by
  set h₁ := h.write e { x with next := c.head } with hh₁
  have hwords : h.SameWords h₁ := Heap.SameWords.write hx rfl
  have hlinks₁ := Heap.links_write hx { x with next := c.head }
  rw [← hh₁] at hlinks₁
  have hguard : ¬(x.prev ≠ none ∨ x.next ≠ none) := by simp [hprev, hnext]
  cases es with
  | nil =>
    have hhead : c.head = none := hc.head
    refine ⟨h₁, ?_, ⟨rfl, by simp [hc.length], by simp, ?_, trivial⟩, hwords, ?_⟩
    · simp only [Chain.pushFront, Heap.read_eq hx, Fault.ok_bind, if_neg hguard, hhead,
        Fault.pure_eq_ok, hh₁]
    · simp [hlinks₁, hhead, hprev]
    · intro f hf
      simp only [List.mem_singleton] at hf
      rw [hlinks₁, if_neg hf]
  | cons first es =>
    have hhead : c.head = some first := hc.head
    have hne : first ≠ e := fun heq => he (by simp [heq])
    obtain ⟨hfirst, htail⟩ := hc.threads
    obtain ⟨z, hz, hzprev, hznext⟩ := Heap.exists_of_links hfirst
    have hz₁ : h₁.get? first = some z := by rw [hh₁, Heap.get?_write hx, if_neg hne, hz]
    have hlinks₂ := Heap.links_write hz₁ { z with prev := some e }
    refine ⟨h₁.write first { z with prev := some e }, ?_,
      ⟨rfl, by simp [hc.length], List.nodup_cons.mpr ⟨he, hc.nodup⟩, ?_, ?_, ?_⟩,
      hwords.trans (Heap.SameWords.write hz₁ rfl), ?_⟩
    · simp only [hh₁, hhead] at hz₁ ⊢
      simp only [Chain.pushFront, Heap.read_eq hx, Fault.ok_bind, if_neg hguard, hhead,
        Fault.pure_eq_ok, Heap.update_eq hz₁]
    · rw [hlinks₂, if_neg (Ne.symm hne), hlinks₁, if_pos rfl]
      simp [hhead, hprev]
    · rw [hlinks₂, if_pos rfl]
      simpa using hznext
    · refine htail.congr fun f hf => ?_
      have hf₁ : f ≠ first := by
        rintro rfl
        exact (List.nodup_cons.mp hc.nodup).1 hf
      have hf₂ : f ≠ e := by
        rintro rfl
        exact he (by simp [hf])
      rw [hlinks₂, if_neg hf₁, hlinks₁, if_neg hf₂]
    · intro f hf
      simp only [List.mem_cons, not_or] at hf
      rw [hlinks₂, if_neg hf.2.1, hlinks₁, if_neg hf.1]

/-- A neighbour that there may be is linked anew. -/
theorem exists_neighbour {f : Element V → Element V}
    {g : Option ElementId × Option ElementId → Option ElementId × Option ElementId}
    (hbare : ∀ y, (f y).bare = y.bare) (hlinks : ∀ y, ((f y).prev, (f y).next) = g (y.prev, y.next))
    {o : Option ElementId} (hlive : ∀ b, o = some b → ∃ y, h.get? b = some y) :
    ∃ h', (∀ b, o = some b → h.update b f = .ok h') ∧ (o = none → h' = h) ∧ h.SameWords h' ∧
      ∀ e, h'.links e = if o = some e then (h.links e).map g else h.links e := by
  cases o with
  | none => exact ⟨h, by simp, fun _ => rfl, .refl h, by simp⟩
  | some b =>
    obtain ⟨y, hy⟩ := hlive b rfl
    refine ⟨h.write b (f y), ?_, by simp, Heap.SameWords.write hy (hbare y), fun e => ?_⟩
    · rintro _ ⟨⟩
      exact Heap.update_eq hy f
    · rw [Heap.links_write hy, hlinks]
      by_cases he : e = b
      · simp [he, Heap.links_eq hy]
      · simp [he, Ne.symm he]

/-- The writes that take an element out of a chain let its neighbours pass it by. -/
theorem exists_passesBy (ht : h.Threads none (as ++ e :: bs) none)
    (hnodup : (as ++ e :: bs).Nodup) (hx : h.get? e = some x) :
    ∃ h₀ h₁ h₂, h₀ = h.write e { x with prev := none, next := none } ∧
      (∀ b, x.prev = some b → h₀.update b (fun y => { y with next := x.next }) = .ok h₁) ∧
      (x.prev = none → h₁ = h₀) ∧
      (∀ a, x.next = some a → h₁.update a (fun y => { y with prev := x.prev }) = .ok h₂) ∧
      (x.next = none → h₂ = h₁) ∧ h.SameWords h₂ ∧ h.PassesBy h₂ as e bs := by
  obtain ⟨htas, hte, htbs⟩ := Heap.threads_append.mp ht
  obtain ⟨hprev, hnext⟩ : x.prev = as.getLast? ∧ x.next = bs.head? := by
    simpa [Heap.links_eq hx] using hte
  obtain ⟨-, hebs, hdisj⟩ := List.nodup_append.mp hnodup
  have hebs := (List.nodup_cons.mp hebs).1
  have heas : e ∉ as := fun he => hdisj e he e (by simp) rfl
  have hlast : ∀ b, as.getLast? = some b → b ∈ as := fun b => List.mem_of_getLast?
  have hfirst : ∀ a, bs.head? = some a → a ∈ bs := fun a => List.mem_of_head?
  have hends : ∀ f, as.getLast? = some f → bs.head? = some f → False :=
    fun f hb ha => hdisj f (hlast f hb) f (by simp [hfirst f ha]) rfl
  set h₀ := h.write e { x with prev := none, next := none }
  have hwords₀ : h.SameWords h₀ := Heap.SameWords.write hx rfl
  have hlinks₀ : ∀ f, h₀.links f = if f = e then some (none, none) else h.links f :=
    Heap.links_write hx _
  obtain ⟨h₁, hok₁, hno₁, hwords₁, hlinks₁⟩ := exists_neighbour (h := h₀)
    (f := fun y => { y with next := x.next }) (g := fun p => (p.1, x.next)) (o := x.prev)
    (fun _ => rfl) (fun _ => rfl) (by
      intro b hb
      obtain ⟨y, hy⟩ := htas.get? (hlast b (hprev ▸ hb))
      obtain ⟨z, hz, -⟩ := hwords₀.exists_get? hy
      exact ⟨z, hz⟩)
  obtain ⟨h₂, hok₂, hno₂, hwords₂, hlinks₂⟩ := exists_neighbour (h := h₁)
    (f := fun y => { y with prev := x.prev }) (g := fun p => (x.prev, p.2)) (o := x.next)
    (fun _ => rfl) (fun _ => rfl) (by
      intro a ha
      obtain ⟨y, hy⟩ := htbs.get? (hfirst a (hnext ▸ ha))
      obtain ⟨z, hz, -⟩ := (hwords₀.trans hwords₁).exists_get? hy
      exact ⟨z, hz⟩)
  refine ⟨h₀, h₁, h₂, rfl, hok₁, hno₁, hok₂, hno₂, hwords₀.trans (hwords₁.trans hwords₂), ?_⟩
  -- each of the three writes concerns one of the elements only
  simp only [hprev, hnext] at hlinks₁ hlinks₂
  constructor
  · rw [hlinks₂, if_neg fun ha => hebs (hfirst e ha), hlinks₁, if_neg fun hb => heas (hlast e hb),
      hlinks₀, if_pos rfl]
  · intro b p hb hp
    have hbe : b ≠ e := fun heq => heas (heq ▸ hlast b hb)
    rw [hlinks₂, if_neg fun ha => hends b hb ha, hlinks₁, if_pos hb, hlinks₀, if_neg hbe, hp,
      Option.map_some]
  · intro a p ha hp
    have hae : a ≠ e := fun heq => hebs (heq ▸ hfirst a ha)
    rw [hlinks₂, if_pos ha, hlinks₁, if_neg fun hb => hends a hb ha, hlinks₀, if_neg hae, hp,
      Option.map_some]
  · intro f hf hb ha
    rw [hlinks₂, if_neg ha, hlinks₁, if_neg hb, hlinks₀, if_neg hf]

/-- An element is taken out of a list, wherever it stands. -/
theorem Represents.unlink (hc : c.Represents h es) (he : e ∈ es) :
    ∃ c' h', c.unlink e h = .ok (c', h') ∧ c'.Represents h' (es.erase e) ∧ h.SameWords h' ∧
      h'.links e = some (none, none) ∧ ∀ f, f ∉ es → h'.links f = h.links f := by
  obtain ⟨as, bs, rfl⟩ := List.append_of_mem he
  obtain ⟨x, hx⟩ := hc.get? he
  obtain ⟨hprev, hnext⟩ : x.prev = as.getLast? ∧ x.next = bs.head? := by
    simpa [Heap.links_eq hx] using (Heap.threads_append.mp hc.threads).2.1
  obtain ⟨h₀, h₁, h₂, hh₀, hok₁, hno₁, hok₂, hno₂, hwords, hpasses⟩ :=
    exists_passesBy hc.threads hc.nodup hx
  have herase := hc.erase_eq
  have hlength : c.length = (as ++ bs).length + 1 := by
    rw [hc.length]
    simp
    omega
  refine ⟨⟨(as ++ bs).head?, (as ++ bs).length⟩, h₂, ?_, ⟨by rw [herase], by rw [herase],
    hc.nodup.erase e, herase ▸ hpasses.threads hc.threads hc.nodup⟩, hwords, hpasses.element,
    fun f hf => hpasses.links_eq hf⟩
  have hhead := hc.head
  simp only [Chain.unlink, Heap.read_eq hx, Fault.ok_bind, ← hh₀, hlength]
  cases hp : x.prev with
  | none =>
    -- without a predecessor the element heads the chain, and the next one does so after it
    obtain rfl : as = [] := List.getLast?_eq_none_iff.mp (hprev ▸ hp)
    obtain rfl := hno₁ hp
    rw [hp] at hok₂
    rw [if_pos (by simpa using hhead), Fault.pure_eq_ok, Fault.ok_bind]
    cases hn : x.next with
    | none => simp only [hno₂ hn, Fault.pure_eq_ok, Fault.ok_bind, ← hnext, hn, List.nil_append]
    | some a =>
      simp only [hok₂ a hn, Fault.ok_bind, Fault.pure_eq_ok, ← hnext, hn, List.nil_append]
  | some b =>
    have hsame : c.head = (as ++ bs).head? := by
      cases as with
      | nil => simp [hp] at hprev
      | cons a as => simpa using hhead
    rw [hp] at hok₂
    have hok₁' := hok₁ b hp
    cases hn : x.next with
    | none =>
      rw [hn] at hok₁'
      simp only [hok₁', hno₂ hn, Fault.pure_eq_ok, Fault.ok_bind, hsame]
    | some a =>
      have hok₂' := hok₂ a hn
      rw [hn] at hok₁'
      simp only [hok₁', hok₂', Fault.ok_bind, Fault.pure_eq_ok, hsame]

theorem Represents.popFront_nil (hc : c.Represents h []) : c.popFront h = .ok (none, c, h) := by
  simp only [Chain.popFront, hc.head, List.head?_nil, Fault.pure_eq_ok]

theorem Represents.popFront_cons (hc : c.Represents h (e :: es)) :
    ∃ c' h', c.popFront h = .ok (some e, c', h') ∧ c'.Represents h' es ∧ h.SameWords h' ∧
      h'.links e = some (none, none) ∧ ∀ f, f ∉ e :: es → h'.links f = h.links f := by
  obtain ⟨c', h', hunlink, hrest⟩ := hc.unlink (e := e) (by simp)
  refine ⟨c', h', ?_, by simpa using hrest⟩
  simp only [Chain.popFront, hc.head, List.head?_cons, hunlink, Fault.ok_bind, Fault.pure_eq_ok]

/-! ## Iteration -/

theorem Iter.advance_cons {i : Iter} {before : Option ElementId} (hi : i.next = some e)
    (hremaining : i.remaining = es.length + 1) (ht : h.Threads before (e :: es) none)
    (hx : h.get? e = some x) :
    i.advance h = .ok (some (e, x, ⟨es.head?, es.length⟩)) := by
  have hnext : x.next = es.head? := by
    have hlinks := ht.1
    rw [Heap.links_eq hx, Option.some.injEq, Prod.mk.injEq, Option.or_none] at hlinks
    exact hlinks.2
  simp only [Iter.advance, hi, Heap.read_eq hx, Fault.ok_bind, hremaining, hnext, Fault.pure_eq_ok]

/-- An iterator that stands in a list yields the rest of it. -/
theorem Iter.toList_eq {i : Iter} {before : Option ElementId} (hi : i.next = es.head?)
    (hremaining : i.remaining = es.length) (ht : h.Threads before es none) :
    i.toList h = .ok (h.pick es) := by
  induction es generalizing i before with
  | nil =>
    have hadvance : i.advance h = .ok none := by
      simp only [Iter.advance, hi, List.head?_nil, Fault.pure_eq_ok]
    rw [Iter.toList]
    split <;> simp_all [Heap.pick]
  | cons e es ih =>
    obtain ⟨x, hx⟩ := ht.get? (List.mem_cons_self ..)
    have hadvance := Iter.advance_cons hi hremaining ht hx
    have htail := ih (i := ⟨es.head?, es.length⟩) rfl rfl ht.2
    rw [Iter.toList]
    split
    · simp_all
    · simp_all
    · rename_i hsome
      rw [hadvance] at hsome
      obtain ⟨rfl, rfl, rfl⟩ := by simpa using hsome
      rw [htail, Fault.ok_bind, Heap.pick_cons hx, Fault.pure_eq_ok]

theorem Iter.find?_eq {i : Iter} {before : Option ElementId} (test : Element V → Bool)
    (hi : i.next = es.head?) (hremaining : i.remaining = es.length)
    (ht : h.Threads before es none) :
    i.find? h test = .ok (es.find? fun e => (h.get? e).any test) := by
  induction es generalizing i before with
  | nil =>
    have hadvance : i.advance h = .ok none := by
      simp only [Iter.advance, hi, List.head?_nil, Fault.pure_eq_ok]
    rw [Iter.find?]
    split <;> simp_all
  | cons e es ih =>
    obtain ⟨x, hx⟩ := ht.get? (List.mem_cons_self ..)
    have hadvance := Iter.advance_cons hi hremaining ht hx
    have htail := ih (i := ⟨es.head?, es.length⟩) rfl rfl ht.2
    rw [Iter.find?]
    split
    · simp_all
    · simp_all
    · rename_i hsome
      rw [hadvance] at hsome
      obtain ⟨rfl, rfl, rfl⟩ := by simpa using hsome
      rw [htail, List.find?_cons, hx, Option.any_some]
      cases test x <;> rfl

theorem Represents.elements (hc : c.Represents h es) : c.elements h = .ok (h.pick es) :=
  Iter.toList_eq hc.head hc.length hc.threads

theorem Represents.find? (hc : c.Represents h es) (test : Element V → Bool) :
    c.find? h test = .ok (es.find? fun e => (h.get? e).any test) :=
  Iter.find?_eq test hc.head hc.length hc.threads

theorem Represents.following (hc : c.Represents h (as ++ e :: bs)) :
    Chain.following e h = .ok bs.head? := by
  obtain ⟨x, hx⟩ := hc.get? (e := e) (by simp)
  obtain ⟨-, hlinks, -⟩ := Heap.threads_append.mp hc.threads
  have hnext : x.next = bs.head? := by
    rw [Heap.links_eq hx] at hlinks
    simpa using (Prod.mk.inj (Option.some.inj hlinks)).2
  simp only [Chain.following, Heap.read_eq hx, Fault.ok_bind, Fault.pure_eq_ok, hnext]

end Chain

end HashIndex
