import WeightedAutomata.Compilation.Branching
import WeightedAutomata.Fragment.Splice

/-!
Expressions built by working off a stack of tasks.

To visit an expression with parts is to put visits of its parts on the stack, the first part on
top, and below them the task that joins what they finish. All other tasks finish a fragment, each
from those that were finished last. So the depth of an expression is the height of a stack.
-/

namespace WeightedAutomata.Compilation

variable {L I O : Type} {r : Range} [LabelOver L I O] [Alphabet I] [Alphabet O]

/-- A pending step in building a fragment. -/
inductive Task (L : Type) (r : Range) where
  | visit (e : Expr L)
  | concat
  /-- Scales the fragments finished last, one for each factor, and merges them. -/
  | merge (factors : List (Weight r))
  | closure (again leave : Weight r)
  | positive (again leave : Weight r)
  | optional (take skip : Weight r)

/-- The fragment finished last, or the empty one if there is none, and the fragments before it. -/
def operand (done : Array (Fragment L r)) : Fragment L r × Array (Fragment L r) :=
  (done.back?.getD .empty, done.pop)

/-- The last `n` fragments, or all if there are fewer. -/
def lastOnes (n : Nat) (done : Array (Fragment L r)) : Array (Fragment L r) :=
  done.extract (done.size - n)

/-- The union of fragments, each multiplied by its factor. -/
def mergeScaled (fragments : List (Fragment L r)) (factors : List (Weight r)) : Fragment L r :=
  (fragments.zip factors).foldl (fun merged (f, factor) => merged.merge (f.scale factor)) .empty

/-- Performs a task, given the finished fragments. Returns the tasks to be done in its place, the
next one in front, and the fragments that are finished then. -/
def Task.perform (d : LogDomain) (done : Array (Fragment L r)) :
    Task L r → Edit L r (List (Task L r) × Array (Fragment L r))
  | visit .epsilon => return ([], done.push (.edge Label.epsilon 1))
  | visit (.token label) => return ([], done.push (.edge label 1))
  | visit (.weighted _ body) => return ([visit body], done)
  | visit (.concat first second) => return ([visit first, visit second, concat], done)
  | visit (.alt first second) =>
    let branches := alternatives d (.alt first second)
    return (branches.map (visit ·.expr) ++ [merge (branches.map Branch.factor)], done)
  | visit (.kleene body) =>
    let (again, leave) := decision d body
    return ([visit body, closure again leave], done)
  | visit (.positive body) =>
    let (again, leave) := decision d body
    return ([visit body, visit body, positive again leave], done)
  | visit (.optional body) =>
    let (take, skip) := decision d body
    return ([visit body, optional take skip], done)
  | concat => do
    let (second, done) := operand done
    let (first, done) := operand done
    return ([], done.push (← first.concat second))
  | merge factors =>
    let branches := lastOnes factors.length done
    let others := done.take (done.size - factors.length)
    return ([], others.push (mergeScaled branches.toList factors))
  | closure again leave => do
    let (body, done) := operand done
    return ([], done.push (← body.closure again leave))
  | positive again leave => do
    let (body, done) := operand done
    let (first, done) := operand done
    return ([], done.push (← first.positiveClosure body again leave))
  | optional take skip =>
    let (body, done) := operand done
    return ([], done.push (body.optional take skip))

/-- A measure of what a task and those that come in its place have to do. -/
def Task.work : Task L r → Nat
  | visit e => 2 * e.work
  | _ => 1

def totalWork (tasks : List (Task L r)) : Nat := tasks.foldr (fun t total => t.work + total) 0

@[simp] theorem totalWork_nil : totalWork ([] : List (Task L r)) = 0 := rfl

@[simp] theorem totalWork_cons (t : Task L r) (tasks : List (Task L r)) :
    totalWork (t :: tasks) = t.work + totalWork tasks := rfl

@[simp] theorem totalWork_append (ts us : List (Task L r)) :
    totalWork (ts ++ us) = totalWork ts + totalWork us := by
  induction ts with
  | nil => simp
  | cons t ts ih => rw [List.cons_append, totalWork_cons, totalWork_cons, ih, Nat.add_assoc]

theorem totalWork_visits (bs : List (Branch L r)) :
    totalWork (bs.map fun b => Task.visit (r := r) b.expr) =
      2 * Expr.totalWork (bs.map Branch.expr) := by
  induction bs with
  | nil => rfl
  | cons b bs ih =>
    rw [List.map_cons, totalWork_cons, ih, List.map_cons, Expr.totalWork_cons, Task.work]
    omega

/-- A task that finishes a fragment leaves no other tasks in its place. -/
theorem of_finish {m : Edit L r (Fragment L r)} {done done' : Array (Fragment L r)}
    {more : List (Task L r)} {a b : Automaton L r I O}
    (h : (do return ([], done.push (← m)) : Edit L r _) a = .ok (more, done') b) :
    more = [] ∧ done'.size = done.size + 1 := by
  simp only [bind, EStateM.bind] at h
  cases hm : m a with
  | ok f c =>
    rw [hm] at h
    cases h
    exact ⟨rfl, Array.size_push ..⟩
  | error cause c =>
    rw [hm] at h
    cases h

/-- What comes in the place of a task is less work. -/
theorem totalWork_perform {d : LogDomain} {t : Task L r} {done done' : Array (Fragment L r)}
    {more : List (Task L r)} {a b : Automaton L r I O}
    (h : t.perform d done a = .ok (more, done') b) : totalWork more < t.work := by
  cases t with
  | visit e =>
    have := e.work_pos
    cases e with
    | alt first second =>
      have := totalWork_alternatives (r := r) d first second
      cases h
      rw [totalWork_append, totalWork_visits]
      simp only [totalWork_cons, totalWork_nil, Task.work, Expr.work]
      omega
    | _ =>
      cases h
      simp only [totalWork_cons, totalWork_nil, Task.work, Expr.work] at *
      omega
  | merge factors | optional take skip =>
    cases h
    exact Nat.one_pos
  | concat | closure again leave | positive again leave =>
    rw [(of_finish h).1]
    exact Nat.one_pos

/-- Works off a stack of tasks. A task that fails leaves the automaton as it is then. -/
def performAll (d : LogDomain) :
    List (Task L r) → Array (Fragment L r) → Edit L r (Array (Fragment L r))
  | [], done => return done
  | t :: tasks, done => fun a =>
    match _h : t.perform d done a with
    | .ok (more, done) b => performAll d (more ++ tasks) done b
    | .error cause b => .error cause b
termination_by tasks => totalWork tasks
decreasing_by
  have := totalWork_perform _h
  simp only [totalWork_append, totalWork_cons]
  omega

theorem performAll_cons (d : LogDomain) (t : Task L r) (tasks : List (Task L r))
    (done : Array (Fragment L r)) :
    performAll d (t :: tasks) done = (do
      let (more, done) ← t.perform d done
      performAll d (more ++ tasks) done) := by
  funext a
  rw [performAll]
  simp only [bind, EStateM.bind]
  cases t.perform d done a <;> rfl

end WeightedAutomata.Compilation
