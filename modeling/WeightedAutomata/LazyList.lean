/-!
Lists whose tails are computed when they are asked for.

The edges of a composed state are produced one by one, and a walk that turns back early never
computes the rest. Each operation has a lemma that names the list operation it stands for, so
nothing that is proved about `toList` depends on the order of evaluation.
-/

namespace WeightedAutomata

inductive LazyList (α : Type) where
  | nil
  | cons (head : α) (tail : Unit → LazyList α)

namespace LazyList

variable {α β : Type}

/-- All elements, the last one first, in front of `acc`. -/
def pushAll : LazyList α → List α → List α
  | nil, acc => acc
  | cons a t, acc => pushAll (t ()) (a :: acc)

def toList (l : LazyList α) : List α := (l.pushAll []).reverse

theorem pushAll_eq (l : LazyList α) (acc : List α) : l.pushAll acc = l.pushAll [] ++ acc := by
  induction l generalizing acc with
  | nil => rfl
  | cons a t ih =>
    rw [pushAll, ih, pushAll, ih () [a]]
    simp

@[simp] theorem toList_nil : (nil : LazyList α).toList = [] := rfl

@[simp] theorem toList_cons (a : α) (t : Unit → LazyList α) :
    (cons a t).toList = a :: (t ()).toList := by
  rw [toList, pushAll, pushAll_eq]
  simp [toList]

/-- The list cut after `n` elements. Nothing beyond them is computed. -/
def upTo : Nat → (Unit → LazyList α) → LazyList α
  | 0, _ => nil
  | n + 1, l =>
    match l () with
    | nil => nil
    | cons a t => cons a fun _ => upTo n t

def take (n : Nat) (l : LazyList α) : List α := (upTo n fun _ => l).toList

theorem toList_upTo (n : Nat) (l : Unit → LazyList α) :
    (upTo n l).toList = (l ()).toList.take n := by
  induction n generalizing l with
  | zero => simp [upTo]
  | succ n ih => rw [upTo]; split <;> simp [*]

@[simp] theorem take_eq (n : Nat) (l : LazyList α) : l.take n = l.toList.take n :=
  toList_upTo n fun _ => l

def ofList : List α → LazyList α
  | [] => nil
  | a :: l => cons a fun _ => ofList l

@[simp] theorem toList_ofList (l : List α) : (ofList l).toList = l := by
  induction l with
  | nil => rfl
  | cons a l ih => simp [ofList, ih]

/-- The elements of an array from position `i` on. -/
def ofArrayFrom (xs : Array α) (i : Nat) : LazyList α :=
  if h : i < xs.size then cons xs[i] fun _ => ofArrayFrom xs (i + 1) else nil
termination_by xs.size - i

def ofArray (xs : Array α) : LazyList α := ofArrayFrom xs 0

theorem toList_ofArrayFrom (xs : Array α) (i : Nat) :
    (ofArrayFrom xs i).toList = xs.toList.drop i := by
  fun_induction ofArrayFrom xs i with
  | case1 i h ih =>
    rw [toList_cons, ih, ← Array.getElem_toList h]
    exact (List.drop_eq_getElem_cons (by simpa using h)).symm
  | case2 i h => simp [List.drop_eq_nil_of_le (Nat.le_of_not_lt h)]

@[simp] theorem toList_ofArray (xs : Array α) : (ofArray xs).toList = xs.toList := by
  simp [ofArray, toList_ofArrayFrom]

def map (f : α → β) : LazyList α → LazyList β
  | nil => nil
  | cons a t => cons (f a) fun _ => map f (t ())

@[simp] theorem toList_map (f : α → β) (l : LazyList α) : (l.map f).toList = l.toList.map f := by
  induction l with
  | nil => rfl
  | cons a t ih => simp [map, ih]

def filterMap (f : α → Option β) : LazyList α → LazyList β
  | nil => nil
  | cons a t =>
    match f a with
    | none => filterMap f (t ())
    | some b => cons b fun _ => filterMap f (t ())

@[simp] theorem toList_filterMap (f : α → Option β) (l : LazyList α) :
    (l.filterMap f).toList = l.toList.filterMap f := by
  induction l with
  | nil => rfl
  | cons a t ih => rw [filterMap]; split <;> simp [*]

def append : LazyList α → (Unit → LazyList α) → LazyList α
  | nil, r => r ()
  | cons a t, r => cons a fun _ => append (t ()) r

@[simp] theorem toList_append (l : LazyList α) (r : Unit → LazyList α) :
    (l.append r).toList = l.toList ++ (r ()).toList := by
  induction l with
  | nil => rfl
  | cons a t ih => simp [append, ih]

/-- Elements that yield nothing are passed over at once. -/
def flatMap (f : α → LazyList β) : LazyList α → LazyList β
  | nil => nil
  | cons a t =>
    match f a with
    | nil => flatMap f (t ())
    | cons b u => cons b fun _ => append (u ()) fun _ => flatMap f (t ())

@[simp] theorem toList_flatMap (f : α → LazyList β) (l : LazyList α) :
    (l.flatMap f).toList = l.toList.flatMap fun a => (f a).toList := by
  induction l with
  | nil => rfl
  | cons a t ih => rw [flatMap]; split <;> simp [*]

end LazyList

end WeightedAutomata
