import WeightedAutomata.Handle

/-!
Things kept in numbered slots, reached by handles.

A new thing takes the slot vacated last, or else the next number. Vacating a slot moves it to its
next generation, so a handle resolves from the moment it is issued until its thing is removed, and
not again before the generations of its slot have come round. The arena also resolves bare slot
numbers, for lists that it knows to be live.
-/

namespace WeightedAutomata

structure Slot (α : Type) where
  generation : Nat
  content : Option α

structure Arena (e : Entity) (α : Type) where
  slots : Array (Slot α)
  /-- The vacant slots, the one vacated last in front. -/
  vacant : List Nat
  /-- The number of things in the arena. -/
  live : Nat

namespace Arena

variable {e : Entity} {α : Type}

def empty : Arena e α := ⟨#[], [], 0⟩

instance : Inhabited (Arena e α) := ⟨empty⟩

/-- The thing in a slot, whatever its generation. -/
def at? (a : Arena e α) (i : Nat) : Option α := a.slots[i]?.bind Slot.content

/-- The thing a handle names, unless it has been removed. -/
def get? (a : Arena e α) (h : Handle e) : Option α :=
  match a.slots[h.index]? with
  | some slot => if slot.generation = h.generation then slot.content else none
  | none => none

def contains (a : Arena e α) (h : Handle e) : Bool := (a.get? h).isSome

/-- The handle under which the thing in slot `i` is in force, or will be once it is filled. -/
def handleAt (a : Arena e α) (i : Nat) : Handle e :=
  ⟨i, (a.slots[i]?.map Slot.generation).getD 0⟩

/-- The handle the next insertion issues. -/
def next (a : Arena e α) : Handle e := a.handleAt (a.vacant.headD a.slots.size)

def insert (a : Arena e α) (x : α) : Arena e α :=
  match a.vacant with
  | [] => { a with slots := a.slots.push ⟨0, some x⟩, live := a.live + 1 }
  | i :: rest =>
    { slots := a.slots.modify i fun s => { s with content := some x }
      vacant := rest
      live := a.live + 1 }

def update (a : Arena e α) (i : Nat) (f : α → α) : Arena e α :=
  { a with slots := a.slots.modify i fun s => { s with content := s.content.map f } }

/-- Generations are 32-bit words, and the first follows the last. -/
def nextGeneration (generation : Nat) : Nat := (generation + 1) % 0x100000000

def vacate (a : Arena e α) (i : Nat) : Arena e α :=
  if (a.at? i).isSome then
    { slots := a.slots.modify i fun s =>
        { generation := nextGeneration s.generation, content := none }
      vacant := i :: a.vacant
      live := a.live - 1 }
  else a

def toList (a : Arena e α) : List (Handle e × α) :=
  a.slots.toList.zipIdx.filterMap fun (s, i) => s.content.map fun x => (⟨i, s.generation⟩, x)

def handles (a : Arena e α) : List (Handle e) := a.toList.map Prod.fst

def size (a : Arena e α) : Nat := a.live

end Arena

end WeightedAutomata
