import HashIndex.Element

/-!
# The heap

Elements live in numbered places of a heap. A place is never used again after its element was
destroyed, so a number names one element for ever, and using it too late is a fault.

## Main definitions

* `Heap.read`, `Heap.write`, `Heap.update`: one element.
* `Heap.allocate`, `Heap.free`: the beginning and the end of an element.
* `Heap.read_write_self`, `Heap.read_write_of_ne`: reading after writing.
-/

namespace HashIndex

/-- The elements of an index. -/
structure Heap (V : Type) where
  /-- The places, in the order they were taken; a destroyed element leaves its own empty. -/
  places : Array (Option (Element V))

namespace Heap

variable {V : Type}

def empty : Heap V := ⟨#[]⟩

/-- The number of elements ever made. -/
def size (h : Heap V) : Nat := h.places.size

/-- The element at a place, if it lives. -/
def get? (h : Heap V) (e : ElementId) : Option (Element V) := h.places[e]?.join

def read (h : Heap V) (e : ElementId) : Except Fault (Element V) :=
  match h.get? e with
  | some x => .ok x
  | none => .error .danglingElement

/-- Put an element at a place that exists. -/
def write (h : Heap V) (e : ElementId) (x : Element V) : Heap V :=
  ⟨h.places.setIfInBounds e (some x)⟩

def update (h : Heap V) (e : ElementId) (f : Element V → Element V) : Except Fault (Heap V) := do
  let x ← h.read e
  return h.write e (f x)

/-- Change the element at a place, unless it may not be changed. -/
def updateM (h : Heap V) (e : ElementId) (f : Element V → Except Fault (Element V)) :
    Except Fault (Heap V) := do
  let x ← h.read e
  let y ← f x
  return h.write e y

def allocate (h : Heap V) (value : V) : ElementId × Heap V :=
  (h.places.size, ⟨h.places.push (some (.fresh value))⟩)

def free (h : Heap V) (e : ElementId) : Heap V :=
  ⟨h.places.setIfInBounds e none⟩

/-- Reading finds exactly the elements that live. -/
theorem read_eq_ok_iff {h : Heap V} {e : ElementId} {x : Element V} :
    h.read e = .ok x ↔ h.get? e = some x := by
  unfold read
  split <;> simp_all

/-- A place that holds an element exists. -/
theorem lt_size_of_get? {h : Heap V} {e : ElementId} {x : Element V} (hx : h.get? e = some x) :
    e < h.size := by
  unfold get? at hx
  by_cases hlt : e < h.places.size
  · exact hlt
  · simp [Array.getElem?_eq_none (Nat.le_of_not_lt hlt)] at hx

@[simp]
theorem size_write (h : Heap V) (e : ElementId) (x : Element V) :
    (h.write e x).size = h.size := by
  simp [write, size]

theorem get?_write_self {h : Heap V} {e : ElementId} (x : Element V) (he : e < h.size) :
    (h.write e x).get? e = some x := by
  unfold size at he
  simp [get?, write, Array.getElem?_setIfInBounds_self_of_lt he]

theorem get?_write_of_ne {h : Heap V} {e f : ElementId} (x : Element V) (hne : e ≠ f) :
    (h.write e x).get? f = h.get? f := by
  simp [get?, write, Array.getElem?_setIfInBounds_ne hne]

theorem get?_free_self (h : Heap V) (e : ElementId) : (h.free e).get? e = none := by
  simp [get?, free, Array.getElem?_setIfInBounds]
  split <;> rfl

theorem get?_free_of_ne {h : Heap V} {e f : ElementId} (hne : e ≠ f) :
    (h.free e).get? f = h.get? f := by
  simp [get?, free, Array.getElem?_setIfInBounds_ne hne]

/-- A new element is where it was put, with its first words. -/
theorem get?_allocate_self (h : Heap V) (value : V) :
    (h.allocate value).2.get? (h.allocate value).1 = some (.fresh value) := by
  simp [get?, allocate]

theorem get?_allocate_of_ne {h : Heap V} {f : ElementId} (value : V) (hne : f ≠ h.size) :
    (h.allocate value).2.get? f = h.get? f := by
  unfold size at hne
  simp only [get?, allocate, Array.getElem?_push, if_neg hne]

end Heap

end HashIndex
