import WeightedAutomata.Compilation.Basic
import Mathlib.Data.List.Induction
import Mathlib.Tactic.Common

/-!
Runs of edits, from the automaton with a start state and nothing else.

A call is one edit of a store; an operation is a call, a splice of fragments or the compilation of
an expression. Calls may fail, handles may be stale or foreign, and whatever a failed operation has
done before it failed stays done. Every operation comes down to a sequence of calls, a splice to
calls that only add, so what each call preserves holds after every run of operations.
-/

namespace WeightedAutomata

variable {L I O : Type} {r : Range} [LabelOver L I O] [Alphabet I] [Alphabet O]

/-- The automaton that an edit leaves, whether it succeeds or fails. -/
def Automaton.after {α : Type} (a : Automaton L r I O) (m : Edit L r α) : Automaton L r I O :=
  match m a with
  | .ok _ b => b
  | .error _ b => b

/-- One edit of a store, with any handles. -/
inductive Call (L : Type) (r : Range) where
  | addState (isFinal : Bool)
  | setFinal (state : StateId) (isFinal : Bool)
  | addTransition (source target : StateId) (label : L) (weight : Weight r)
  | removeTransition (transition : TransitionId)
  | removeState (state : StateId)

/-- One operation on an automaton, with any handles and any fragments. -/
inductive Operation (L : Type) (r : Range) where
  | call (c : Call L r)
  | fragment (d : LogDomain) (e : Expr L)
  | compileFrom (d : LogDomain) (e : Expr L) (start : StateId)
  | concat (f g : Fragment L r)
  | closure (f : Fragment L r) (again leave : Weight r)
  | positiveClosure (f g : Fragment L r) (again leave : Weight r)
  | attach (f : Fragment L r) (start : StateId)

def Call.edit : Call L r → Edit L r Unit
  | addState isFinal => discard (Automaton.addState isFinal)
  | setFinal s isFinal => Automaton.setFinal s isFinal
  | addTransition source target label weight =>
    discard (Automaton.addTransition source target label weight)
  | removeTransition t => discard (Automaton.removeTransition t)
  | removeState s => Automaton.removeState s

/-- A call that takes nothing out. -/
def Call.Adds : Call L r → Prop
  | addState _ | setFinal _ _ | addTransition _ _ _ _ => True
  | removeTransition _ | removeState _ => False

def Operation.edit : Operation L r → Edit L r Unit
  | call c => c.edit
  | fragment d e => discard (e.fragment d)
  | compileFrom d e start => discard (e.compileFrom d start)
  | concat f g => discard (f.concat g)
  | closure f again leave => discard (f.closure again leave)
  | positiveClosure f g again leave => discard (f.positiveClosure g again leave)
  | attach f start => discard (f.attach start)

namespace Automaton

def call (a : Automaton L r I O) (calls : List (Call L r)) : Automaton L r I O :=
  calls.foldl (fun a c => a.after c.edit) a

def reach (ops : List (Operation L r)) : Automaton L r I O :=
  ops.foldl (fun a o => a.after o.edit) .new

lemma call_append (a : Automaton L r I O) (calls more : List (Call L r)) :
    a.call (calls ++ more) = (a.call calls).call more := List.foldl_append ..

end Automaton

/-- The operation does what these calls do. A call is itself; everything else only adds. -/
def Operation.Makes (o : Operation L r) (a : Automaton L r I O) (calls : List (Call L r)) : Prop :=
  a.after o.edit = a.call calls ∧
    match o with
    | .call c => calls = [c]
    | _ => ∀ c ∈ calls, c.Adds

/-! ### Every operation is a sequence of calls -/

namespace Edit

variable {α β : Type}

lemma bind_ok {m : Edit L r α} {x : α} {a b : Automaton L r I O} (h : m a = .ok x b)
    (f : α → Edit L r β) : (m >>= f) a = f x b := by
  simp only [bind, EStateM.bind, h]

lemma exists_of_bind_eq_ok {m : Edit L r α} {f : α → Edit L r β} {a c : Automaton L r I O} {y : β}
    (h : (m >>= f) a = .ok y c) : ∃ x b, m a = .ok x b ∧ f x b = .ok y c := by
  simp only [bind, EStateM.bind] at h
  cases hm : m a with
  | ok x b =>
    rw [hm] at h
    exact ⟨x, b, rfl, h⟩
  | error cause b =>
    rw [hm] at h
    cases h

lemma get_bind (f : Automaton L r I O → Edit L r β) (a : Automaton L r I O) :
    (get >>= f) a = f a a := rfl

lemma discard_ok {m : Edit L r α} {x : α} {a b : Automaton L r I O} (h : m a = .ok x b) :
    discard m a = .ok () b := by
  simp only [discard, Functor.discard, Functor.mapConst, EStateM.map, Function.comp_apply, h]

lemma discard_error_iff {m : Edit L r α} {cause : Error} {a b : Automaton L r I O} :
    discard m a = .error cause b ↔ m a = .error cause b := by
  simp only [discard, Functor.discard, Functor.mapConst, EStateM.map, Function.comp_apply]
  cases m a <;> simp

lemma after_bind (m : Edit L r α) (f : α → Edit L r β) (a : Automaton L r I O) :
    a.after (m >>= f) =
      match m a with
      | .ok x b => b.after (f x)
      | .error _ b => b := by
  simp only [Automaton.after, bind, EStateM.bind]
  cases m a <;> rfl

lemma after_discard (m : Edit L r α) (a : Automaton L r I O) : a.after (discard m) = a.after m := by
  simp only [Automaton.after, discard, Functor.discard, Functor.mapConst, EStateM.map,
    Function.comp_apply]
  cases m a <;> rfl

/-- Whatever an edit does to an automaton, some calls that take nothing out do too. -/
def OnlyAdds (m : Edit L r α) : Prop :=
  ∀ a : Automaton L r I O, ∃ calls : List (Call L r), a.after m = a.call calls ∧ ∀ c ∈ calls, c.Adds

namespace OnlyAdds

lemma pure (x : α) : OnlyAdds (L := L) (r := r) (pure x) := fun _ => ⟨[], rfl, by simp⟩

lemma throw (cause : Error) : OnlyAdds (throw cause : Edit L r α) := fun _ => ⟨[], rfl, by simp⟩

lemma get : OnlyAdds (get : Edit L r (Automaton L r I O)) := fun _ => ⟨[], rfl, by simp⟩

lemma call {c : Call L r} (hc : c.Adds) : OnlyAdds c.edit := fun _ => ⟨[c], rfl, by simpa using hc⟩

lemma bind_of_ok {m : Edit L r α} {f : α → Edit L r β} (hm : OnlyAdds m)
    (hf : ∀ a x b, m a = .ok x b → OnlyAdds (f x)) : OnlyAdds (m >>= f) := by
  intro a
  obtain ⟨calls, hcalls, hadds⟩ := hm a
  rw [after_bind]
  unfold Automaton.after at hcalls
  cases h : m a with
  | ok x b =>
    simp only [h] at hcalls ⊢
    obtain ⟨more, hmore, hadds'⟩ := hf a x b h b
    refine ⟨calls ++ more, by rw [hmore, hcalls, Automaton.call_append], fun c hc => ?_⟩
    exact (List.mem_append.1 hc).elim (hadds c) (hadds' c)
  -- the first edit failed, so the second one never runs
  | error cause b =>
    simp only [h] at hcalls ⊢
    exact ⟨calls, hcalls, hadds⟩

lemma bind {m : Edit L r α} {f : α → Edit L r β} (hm : OnlyAdds m)
    (hf : ∀ x, OnlyAdds (f x)) : OnlyAdds (m >>= f) := hm.bind_of_ok fun _ x _ _ => hf x

lemma seq {m : Edit L r PUnit} {n : Edit L r β} (hm : OnlyAdds m) (hn : OnlyAdds n) :
    OnlyAdds (do m; n) := hm.bind fun _ => hn

lemma ite {p : Prop} [Decidable p] {m n : Edit L r α} (hm : OnlyAdds m) (hn : OnlyAdds n) :
    OnlyAdds (if p then m else n) := by
  split
  · exact hm
  · exact hn

lemma of_discard {m : Edit L r α} (hm : OnlyAdds (discard m)) : OnlyAdds m := by
  intro a
  rw [← after_discard]
  exact hm a

lemma discard {m : Edit L r α} (hm : OnlyAdds m) : OnlyAdds (discard m) := by
  intro a
  rw [after_discard]
  exact hm a

lemma addState (isFinal : Bool) : OnlyAdds (Automaton.addState isFinal : Edit L r StateId) :=
  .of_discard (.call (c := .addState isFinal) trivial)

lemma setFinal (s : StateId) (isFinal : Bool) :
    OnlyAdds (Automaton.setFinal s isFinal : Edit L r Unit) :=
  .call (c := .setFinal s isFinal) trivial

lemma addTransition (source target : StateId) (label : L) (weight : Weight r) :
    OnlyAdds (Automaton.addTransition source target label weight) :=
  .of_discard (.call (c := .addTransition source target label weight) trivial)

lemma forM (xs : Array α) {f : α → Edit L r PUnit} (hf : ∀ x, OnlyAdds (f x)) :
    OnlyAdds (xs.forM f) := by
  unfold Array.forM
  rw [← Array.foldlM_toList]
  induction xs.toList with
  | nil => exact .pure _
  | cons x l ih =>
    rw [List.foldlM_cons]
    exact (hf x).bind fun _ => ih

open Fragment

lemma closeExits (exits : Array (Exit L r)) (target : StateId) :
    OnlyAdds (closeExits exits target) :=
  .forM _ fun _ => .discard (addTransition _ _ _ _)

lemma closeEntries (entries : Array (Entry L r)) (source : StateId) :
    OnlyAdds (closeEntries entries source) :=
  .forM _ fun _ => .discard (addTransition _ _ _ _)

lemma closePassages (passages : Array (Passage L r)) (source target : StateId) :
    OnlyAdds (closePassages passages source target) :=
  .forM _ fun _ => .discard (addTransition _ _ _ _)

lemma closeOn (f : Fragment L r) (hub : StateId) (again : Weight r) :
    OnlyAdds (f.closeOn hub again) :=
  (closePassages _ _ _).seq ((closeEntries _ _).seq (closeExits _ _))

lemma concat (f g : Fragment L r) : OnlyAdds (f.concat g) :=
  (addState false).bind fun _ => (closeExits _ _).seq ((closeEntries _ _).seq (.pure _))

lemma closure (f : Fragment L r) (again leave : Weight r) :
    OnlyAdds (f.closure again leave) :=
  (addState false).bind fun _ => (closeOn _ _ _).seq (.pure _)

lemma positiveClosure (f g : Fragment L r) (again leave : Weight r) :
    OnlyAdds (f.positiveClosure g again leave) :=
  (addState false).bind fun _ => (closeExits _ _).seq ((closeOn _ _ _).seq (.pure _))

lemma attach (f : Fragment L r) (start : StateId) : OnlyAdds (f.attach start) := by
  unfold Fragment.attach
  refine get.bind fun a => ?_
  -- whichever branch it takes, it makes states, links and sets finality, and removes nothing
  have hopen : OnlyAdds (do
      Fragment.closeEntries f.entries start
      if f.exits.isEmpty then
        Automaton.setFinal start true
        return start
      else
        let final ← Automaton.addState true
        Fragment.closeExits f.exits final
        return final) :=
    (closeEntries _ _).seq <| .ite ((setFinal _ _).seq (.pure _))
      ((addState _).bind fun _ => (closeExits _ _).seq (.pure _))
  have hthrough : OnlyAdds (do
      let final ← Automaton.addState true
      Fragment.closePassages f.passages start final
      Fragment.closeEntries f.entries start
      Fragment.closeExits f.exits final
      return final) :=
    (addState _).bind fun _ =>
      (closePassages _ _ _).seq ((closeEntries _ _).seq ((closeExits _ _).seq (.pure _)))
  exact .ite ((throw _).bind fun _ => .ite hopen hthrough) (.ite hopen hthrough)

open Compilation

lemma perform (d : LogDomain) (t : Task L r) (done : Array (Fragment L r)) :
    OnlyAdds (t.perform d done) := by
  cases t with
  | visit e => cases e <;> exact .pure _
  | concat => exact (concat _ _).bind fun _ => .pure _
  | merge factors => exact .pure _
  | closure again leave => exact (closure _ _ _).bind fun _ => .pure _
  | positive again leave => exact (positiveClosure _ _ _ _).bind fun _ => .pure _
  | optional take skip => exact .pure _

lemma performAll (d : LogDomain) (tasks : List (Task L r)) (done : Array (Fragment L r)) :
    OnlyAdds (performAll d tasks done) := by
  -- by the tasks still on the stack, as the loop takes them up
  induction tasks, done using performAll.induct (L := L) (r := r) d with
  | case1 done =>
    rw [Compilation.performAll]
    exact .pure _
  | case2 t tasks done ih =>
    rw [performAll_cons]
    exact (perform d t done).bind_of_ok fun a x b h => ih a x.1 x.2 b h

lemma fragment (d : LogDomain) (e : Expr L) :
    OnlyAdds (e.fragment d : Edit L r (Fragment L r)) :=
  (performAll _ _ _).bind fun _ => .pure _

lemma compileFrom (d : LogDomain) (e : Expr L) (start : StateId) :
    OnlyAdds (e.compileFrom d start : Edit L r StateId) := by
  have hrest : OnlyAdds (do
      let f ← e.fragment d
      f.attach start : Edit L r StateId) := (fragment d e).bind fun f => attach f start
  exact get.bind fun a => .ite ((throw _).bind fun _ => hrest) hrest

end OnlyAdds

end Edit

namespace Automaton

/-- **Every operation comes down to calls.** -/
lemma exists_makes (o : Operation L r) (a : Automaton L r I O) : ∃ calls, o.Makes a calls := by
  have hadds : ∀ {m : Edit L r Unit}, Edit.OnlyAdds m →
      ∃ calls, a.after m = a.call calls ∧ ∀ c ∈ calls, c.Adds := fun hm => hm a
  cases o with
  | call c => exact ⟨[c], rfl, rfl⟩
  | fragment d e => exact hadds (.discard (.fragment d e))
  | compileFrom d e start => exact hadds (.discard (.compileFrom d e start))
  | concat f g => exact hadds (.discard (.concat f g))
  | closure f again leave => exact hadds (.discard (.closure f again leave))
  | positiveClosure f g again leave => exact hadds (.discard (.positiveClosure f g again leave))
  | attach f start => exact hadds (.discard (.attach f start))

/-- **Every run of operations is a run of calls.** -/
lemma exists_calls (ops : List (Operation L r)) :
    ∃ calls : List (Call L r), reach ops = Automaton.new.call calls := by
  induction ops using List.reverseRecOn with
  | nil => exact ⟨[], rfl⟩
  | append_singleton ops o ih =>
    obtain ⟨calls, hcalls⟩ := ih
    obtain ⟨more, hmore, -⟩ := exists_makes o (reach ops)
    refine ⟨calls ++ more, ?_⟩
    rw [call_append, ← hcalls, ← hmore]
    simp [reach]

end Automaton

end WeightedAutomata
