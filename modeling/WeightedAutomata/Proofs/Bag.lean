import Mathlib.Algebra.BigOperators.Group.List.Basic
import Mathlib.Algebra.Ring.Defs
import Mathlib.Logic.Equiv.List
import Mathlib.Logic.Equiv.Prod
import Mathlib.Logic.Equiv.Sum

/-!
Bags of values, infinite ones included.

A bag has items, each with a value; two bags are the same when their items correspond one to one
and keep their values. Bags are added side by side and multiplied item by item. An equation
between bags is a bijection between two kinds of items, and such equations are solved here as
equations in a semiring are.
-/

namespace WeightedAutomata

variable {M : Type}

structure Family (M : Type) where
  Item : Type
  value : Item → M

namespace Family

/-- The items correspond one to one and keep their values. -/
def Same (a b : Family M) : Prop := ∃ e : a.Item ≃ b.Item, ∀ i, b.value (e i) = a.value i

instance setoid (M : Type) : Setoid (Family M) where
  r := Same
  iseqv := {
    refl := fun _ => ⟨Equiv.refl _, fun _ => rfl⟩
    symm := by
      rintro a b ⟨e, he⟩
      refine ⟨e.symm, fun i => ?_⟩
      rw [← he, e.apply_symm_apply]
    trans := by
      rintro a b c ⟨e, he⟩ ⟨f, hf⟩
      exact ⟨e.trans f, fun i => (hf _).trans (he _)⟩ }

end Family

def Bag (M : Type) : Type 1 := Quotient (Family.setoid M)

namespace Bag

variable {α β γ : Type} {u : α → M} {v : β → M}

/-- The bag of a value for each item. -/
def of (v : α → M) : Bag M := Quotient.mk _ ⟨α, v⟩

lemma of_eq_of_iff : of u = of v ↔ ∃ e : α ≃ β, ∀ i, v (e i) = u i := Quotient.eq

lemma of_congr (e : α ≃ β) (h : ∀ i, v (e i) = u i) : of u = of v := of_eq_of_iff.2 ⟨e, h⟩

lemma exists_of (a : Bag M) : ∃ (α : Type) (v : α → M), a = of v := by
  obtain ⟨⟨α, v⟩, rfl⟩ := Quotient.exists_rep a
  exact ⟨α, v, rfl⟩

/-! ### Sums and products -/

instance : Zero (Bag M) := ⟨of (Empty.elim : Empty → M)⟩

instance : Add (Bag M) where
  add := Quotient.map₂ (fun a b => ⟨a.Item ⊕ b.Item, Sum.elim a.value b.value⟩) (by
    rintro a a' ⟨e, he⟩ b b' ⟨f, hf⟩
    refine ⟨Equiv.sumCongr e f, ?_⟩
    rintro (i | j)
    · exact he i
    · exact hf j)

def single (m : M) : Bag M := of fun _ : Unit => m

variable [Monoid M]

instance : One (Bag M) := ⟨single 1⟩

instance : Mul (Bag M) where
  mul := Quotient.map₂ (fun a b => ⟨a.Item × b.Item, fun p => a.value p.1 * b.value p.2⟩) (by
    rintro a a' ⟨e, he⟩ b b' ⟨f, hf⟩
    exact ⟨Equiv.prodCongr e f, fun p => congrArg₂ _ (he p.1) (hf p.2)⟩)

omit [Monoid M] in
lemma zero_eq_of [IsEmpty α] : 0 = of u := of_congr (Equiv.equivOfIsEmpty _ _) (fun i => i.elim)

instance : Semiring (Bag M) where
  nsmul := nsmulRec
  npow := npowRec
  add_assoc a b c := by
    obtain ⟨α, u, rfl⟩ := exists_of a
    obtain ⟨β, v, rfl⟩ := exists_of b
    obtain ⟨γ, w, rfl⟩ := exists_of c
    refine of_congr (Equiv.sumAssoc α β γ) ?_
    rintro ((i | j) | k) <;> rfl
  zero_add a := by
    obtain ⟨α, u, rfl⟩ := exists_of a
    refine of_congr (Equiv.emptySum Empty α) ?_
    rintro (i | i)
    · exact i.elim
    · rfl
  add_zero a := by
    obtain ⟨α, u, rfl⟩ := exists_of a
    refine of_congr (Equiv.sumEmpty α Empty) ?_
    rintro (i | i)
    · rfl
    · exact i.elim
  add_comm a b := by
    obtain ⟨α, u, rfl⟩ := exists_of a
    obtain ⟨β, v, rfl⟩ := exists_of b
    refine of_congr (Equiv.sumComm α β) ?_
    rintro (i | j) <;> rfl
  left_distrib a b c := by
    obtain ⟨α, u, rfl⟩ := exists_of a
    obtain ⟨β, v, rfl⟩ := exists_of b
    obtain ⟨γ, w, rfl⟩ := exists_of c
    refine of_congr (Equiv.prodSumDistrib α β γ) ?_
    rintro ⟨i, j | k⟩ <;> rfl
  right_distrib a b c := by
    obtain ⟨α, u, rfl⟩ := exists_of a
    obtain ⟨β, v, rfl⟩ := exists_of b
    obtain ⟨γ, w, rfl⟩ := exists_of c
    refine of_congr (Equiv.sumProdDistrib α β γ) ?_
    rintro ⟨i | j, k⟩ <;> rfl
  zero_mul a := by
    obtain ⟨α, u, rfl⟩ := exists_of a
    exact zero_eq_of.symm
  mul_zero a := by
    obtain ⟨α, u, rfl⟩ := exists_of a
    exact zero_eq_of.symm
  mul_assoc a b c := by
    obtain ⟨α, u, rfl⟩ := exists_of a
    obtain ⟨β, v, rfl⟩ := exists_of b
    obtain ⟨γ, w, rfl⟩ := exists_of c
    exact of_congr (Equiv.prodAssoc α β γ) fun p => (mul_assoc ..).symm
  one_mul a := by
    obtain ⟨α, u, rfl⟩ := exists_of a
    exact of_congr (Equiv.punitProd α) fun p => (one_mul _).symm
  mul_one a := by
    obtain ⟨α, u, rfl⟩ := exists_of a
    exact of_congr (Equiv.prodPUnit α) fun p => (mul_one _).symm

lemma single_mul_single (m n : M) : single m * single n = single (m * n) :=
  of_congr (Equiv.punitProd Unit) fun _ => rfl

lemma single_mul_of (m : M) (v : α → M) : single m * of v = of fun i => m * v i :=
  of_congr (Equiv.punitProd α) fun _ => rfl

/-- A value that commutes with all others does so as a bag of one. -/
lemma single_mul_comm {m : M} (hm : ∀ n, m * n = n * m) (a : Bag M) :
    single m * a = a * single m := by
  obtain ⟨α, u, rfl⟩ := exists_of a
  exact of_congr (Equiv.prodComm Unit α) fun p => (hm _).symm

/-! ### Sums over a list -/

omit [Monoid M] in
/-- The bags of the members of a list, side by side: an item is a member and an item of its bag. -/
lemma sum_map_of {τ : Type} {Item : τ → Type} (value : ∀ t, Item t → M) {l : List τ}
    (hl : l.Nodup) : (l.map fun t => of (value t)).sum =
      of fun x : (t : {t // t ∈ l}) × Item t.1 => value x.1.1 x.2 := by
  induction l with
  | nil =>
    have : IsEmpty ((t : {t // t ∈ ([] : List τ)}) × Item t.1) := ⟨fun x => by simpa using x.1.2⟩
    exact zero_eq_of
  | cons t l ih =>
    obtain ⟨ht, hl⟩ := List.nodup_cons.1 hl
    rw [List.map_cons, List.sum_cons, ih hl]
    let member : Item t ⊕ ((u : {u // u ∈ l}) × Item u.1) →
        (u : {u // u ∈ t :: l}) × Item u.1 :=
      Sum.elim (fun i => ⟨⟨t, List.mem_cons_self⟩, i⟩)
        fun x => ⟨⟨x.1.1, List.mem_cons_of_mem _ x.1.2⟩, x.2⟩
    -- a member of the sum comes from the first bag or from one of the others, and `t` is not one
    -- of the others
    have hinjective : Function.Injective member := by
      rintro (i | ⟨⟨u, hu⟩, i⟩) (j | ⟨⟨w, hw⟩, j⟩) h
      · obtain ⟨-, h⟩ := Sigma.mk.inj h
        rw [eq_of_heq h]
      · obtain ⟨h, -⟩ := Sigma.mk.inj h
        exact absurd ((Subtype.mk.inj h).symm ▸ hw) ht
      · obtain ⟨h, -⟩ := Sigma.mk.inj h
        exact absurd (Subtype.mk.inj h ▸ hu) ht
      · obtain ⟨h, hi⟩ := Sigma.mk.inj h
        have huw : u = w := Subtype.mk.inj h
        subst huw
        have hij : i = j := eq_of_heq hi
        rw [hij]
    have hsurjective : Function.Surjective member := by
      rintro ⟨⟨u, hu⟩, i⟩
      rcases List.mem_cons.1 hu with rfl | hu
      · exact ⟨.inl i, rfl⟩
      · exact ⟨.inr ⟨⟨u, hu⟩, i⟩, rfl⟩
    refine of_congr (Equiv.ofBijective member ⟨hinjective, hsurjective⟩) ?_
    rintro (i | x) <;> rfl

/-! ### Repetition -/

/-- All finite sequences of items, each with the product of their values. -/
def repeated (v : α → M) : Bag M := of fun is : List α => (is.map v).prod

/-- **Loops are solved by repetition.** A bag that is another bag times itself plus a rest is that
other bag repeated any number of times before the rest, if every pass takes some length. -/
theorem eq_repeated_mul {len : M → ℕ} (hlen : ∀ m n, len (m * n) = len m + len n) {v : α → M}
    (hv : ∀ i, 0 < len (v i)) {a b : Bag M} (h : a = of v * a + b) : a = repeated v * b := by
  obtain ⟨γ, w, rfl⟩ := exists_of a
  obtain ⟨β, z, rfl⟩ := exists_of b
  obtain ⟨e, he⟩ : ∃ e : γ ≃ (α × γ) ⊕ β,
      ∀ k, Sum.elim (fun p : α × γ => v p.1 * w p.2) z (e k) = w k := of_eq_of_iff.1 h
  have hvalue : ∀ y, w (e.symm y) = Sum.elim (fun p : α × γ => v p.1 * w p.2) z y := by
    intro y
    rw [← he, e.apply_symm_apply]
  let item : List α × β → γ := fun p =>
    p.1.foldr (fun i k => e.symm (.inl (i, k))) (e.symm (.inr p.2))
  have hinjective : Function.Injective item := by
    rintro ⟨is, j⟩ ⟨is', j'⟩ hp
    induction is generalizing is' with
    | nil =>
      cases is' with
      | nil =>
        have hj : j = j' := Sum.inr.inj (e.symm.injective hp)
        rw [hj]
      | cons i' is' => cases e.symm.injective hp
    | cons i is ih =>
      cases is' with
      | nil => cases e.symm.injective hp
      | cons i' is' =>
        obtain ⟨rfl, hrest⟩ := Prod.mk.inj (Sum.inl.inj (e.symm.injective hp))
        obtain ⟨rfl, rfl⟩ := Prod.mk.inj (ih is' hrest)
        rfl
  have hsurjective : Function.Surjective item := by
    intro k
    -- each pass that is taken off makes the value shorter
    induction hk : len (w k) using Nat.strong_induction_on generalizing k with
    | _ n ih =>
      cases hcase : e k with
      | inr j => exact ⟨([], j), e.symm_apply_eq.2 hcase.symm⟩
      | inl p =>
        obtain ⟨i, k'⟩ := p
        have hw : w k = v i * w k' := by rw [← he, hcase]; rfl
        have hshorter : len (w k') < n := by
          rw [← hk, hw, hlen]
          have := hv i
          omega
        obtain ⟨⟨is, j⟩, hrest⟩ := ih _ hshorter k' rfl
        refine ⟨(i :: is, j), e.symm_apply_eq.2 ?_⟩
        rw [hcase]
        exact congrArg (fun k => Sum.inl (i, k)) hrest
  refine (of_congr (Equiv.ofBijective item ⟨hinjective, hsurjective⟩) ?_).symm
  rintro ⟨is, j⟩
  induction is with
  | nil => exact (hvalue _).trans (one_mul _).symm
  | cons i is ih =>
    calc w (item (i :: is, j)) = v i * w (item (is, j)) := hvalue _
      _ = v i * ((is.map v).prod * z j) := congrArg (v i * ·) ih
      _ = ((i :: is).map v).prod * z j := by rw [List.map_cons, List.prod_cons, mul_assoc]

end Bag

end WeightedAutomata
