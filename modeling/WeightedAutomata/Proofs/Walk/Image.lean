import WeightedAutomata.Proofs.Walk.Enumeration
import Mathlib.Data.List.Forall2

/-!
Walks over a machine and over an image of it.

An image has a state for each state that can be reached, final where that one is, and the same arcs
in the same order. A walk over a machine and a walk over its image stand at corresponding frames
after every call: both have found the same path or both have given up, after the same arcs. So a
walker cannot tell a machine from its image.
-/

namespace WeightedAutomata

variable {σ τ L : Type} {r : Range}

def Arc.map (f : σ → τ) (x : Arc σ L r) : Arc τ L r := ⟨f x.target, x.label, x.weight⟩

def Occurrence.map (f : σ → τ) : Occurrence σ → Occurrence τ
  | accepted n => accepted n
  | pulled => pulled
  | cut n => cut n
  | gaveUp n => gaveUp n
  | entered s => entered (f s)

/-- The known states of a machine, which no arc leaves, have images in another machine, with the
images of their arcs in the same order. -/
structure Machine.Image (m : Machine σ L r) (m' : Machine τ L r) (f : σ → τ) (Known : σ → Prop) :
    Prop where
  start : f m.start = m'.start
  known_start : Known m.start
  isFinal : ∀ s, Known s → m'.isFinal (f s) = m.isFinal s
  arcs : ∀ s, Known s → (m'.arcs (f s)).toList = (m.arcs s).toList.map (Arc.map f)
  known_target : ∀ s, Known s → ∀ x ∈ (m.arcs s).toList, Known x.target

namespace Walk

variable {m : Machine σ L r} {m' : Machine τ L r} {f : σ → τ} {Known : σ → Prop}

/-! ### Corresponding frames -/

/-- The second frame stands at the image of the first one's state, with the images of its arcs still
to be followed. -/
structure FrameImage (f : σ → τ) (Known : σ → Prop) (a : Frame σ L r) (b : Frame τ L r) : Prop where
  state : b.state = f a.state
  known : Known a.state
  weight : b.weight = a.weight
  isVisited : b.isVisited = a.isVisited
  pending : (b.pending ()).toList = (a.pending ()).toList.map (Arc.map f)
  known_target : ∀ x ∈ (a.pending ()).toList, Known x.target

structure Image (f : σ → τ) (Known : σ → Prop) (w : Walk σ L r) (w' : Walk τ L r) : Prop where
  frames : List.Forall₂ (FrameImage f Known) w.frames w'.frames
  labels : w'.labels = w.labels
  isTruncated : w'.isTruncated = w.isTruncated

lemma frameImage_enter (h : m.Image m' f Known) {s : σ} (hs : Known s) (w : Weight r) :
    FrameImage f Known (enter m s w) (enter m' (f s) w) where
  state := rfl
  known := hs
  weight := rfl
  isVisited := rfl
  pending := h.arcs s hs
  known_target := h.known_target s hs

lemma image_begin (h : m.Image m' f Known) : Image f Known (begin m) (begin m') where
  frames := by
    unfold begin
    rw [← h.start]
    exact .cons (frameImage_enter h h.known_start 1) .nil
  labels := rfl
  isTruncated := rfl

namespace FrameImage

variable {a : Frame σ L r} {b : Frame τ L r}

lemma exists_eq (hab : FrameImage f Known a b) :
    ∃ pending, b = ⟨f a.state, a.weight, pending, a.isVisited⟩ := by
  obtain ⟨state, weight, pending, isVisited⟩ := b
  obtain ⟨rfl, -, rfl, rfl, -, -⟩ := hab
  exact ⟨pending, rfl⟩

lemma handsOut_eq (h : m.Image m' f Known) (hab : FrameImage f Known a b) :
    (!a.isVisited && m'.isFinal (f a.state)) = (!a.isVisited && m.isFinal a.state) := by
  rw [h.isFinal _ hab.known]

lemma pending_nil (hab : FrameImage f Known a b) (ha : a.pending () = .nil) :
    b.pending () = .nil := by
  have hpending := hab.pending
  rw [ha, LazyList.toList_nil, List.map_nil] at hpending
  cases hb : b.pending () with
  | nil => rfl
  | cons y later =>
    rw [hb, LazyList.toList_cons] at hpending
    cases hpending

lemma pending_cons (hab : FrameImage f Known a b) {x : Arc σ L r}
    {later : Unit → LazyList (Arc σ L r)} (ha : a.pending () = .cons x later) :
    ∃ later', b.pending () = .cons (x.map f) later' ∧
      FrameImage f Known { a with pending := later, isVisited := true }
        { b with pending := later', isVisited := true } := by
  have hpending := hab.pending
  have hknown := hab.known_target
  rw [ha, LazyList.toList_cons] at hpending hknown
  cases hb : b.pending () with
  | nil =>
    rw [hb, LazyList.toList_nil] at hpending
    cases hpending
  | cons y later' =>
    rw [hb, LazyList.toList_cons, List.map_cons] at hpending
    obtain ⟨rfl, hlater⟩ := List.cons.inj hpending
    exact ⟨later', rfl, {
      hab with
      isVisited := rfl
      pending := hlater
      known_target := fun z hz => hknown z (List.mem_cons_of_mem _ hz) }⟩

end FrameImage

/-! ### One call -/

/-- Two searches have come to the same: the same account, the same path or none, and walks that
stand at corresponding frames. -/
structure SameOutcome {β : Type} (f : σ → τ) (Known : σ → Prop)
    (found : β × Option (Path L r) × Walk σ L r) (found' : β × Option (Path L r) × Walk τ L r) :
    Prop where
  account : found'.1 = found.1
  path : found'.2.1 = found.2.1
  later : Image f Known found.2.2 found'.2.2

/-- **A search over the image comes to the same** and notes the same on the way. -/
lemma sameOutcome_advance (h : m.Image m' f Known) (limits : Limits) {β : Type}
    (note : β → Occurrence τ → β) (account : β) (steps : UInt32) {w : Walk σ L r} {w' : Walk τ L r}
    (hw : Image f Known w w') :
    SameOutcome f Known (advance m limits (fun b o => note b (o.map f)) account steps w)
      (advance m' limits note account steps w') := by
  obtain ⟨frames', labels', cut'⟩ := w'
  obtain ⟨hframes, hlabels, hcut⟩ := hw
  simp only at hframes hlabels hcut
  subst hlabels hcut
  fun_induction advance m limits (fun b o => note b (o.map f)) account steps w
      generalizing frames' with
  | case1 account steps labels cut =>
    cases hframes
    conv => rhs; rw [advance]
    exact ⟨rfl, rfl, .nil, rfl, rfl⟩
  | case2 account steps a below labels cut depth hhere =>
    obtain _ | ⟨hab, hbelow⟩ := hframes
    obtain ⟨pending, rfl⟩ := hab.exists_eq
    rw [← hab.handsOut_eq h] at hhere
    conv => rhs; rw [advance, if_pos hhere]
    exact ⟨rfl, rfl, .cons { hab with isVisited := rfl } hbelow, rfl, rfl⟩
  | case3 account steps a below labels cut depth hhere hdepth _ ih =>
    obtain _ | ⟨hab, hbelow⟩ := hframes
    obtain ⟨pending, rfl⟩ := hab.exists_eq
    rw [← hab.handsOut_eq h] at hhere
    conv => rhs; rw [advance, if_neg hhere, if_pos hdepth]
    exact ih _ hbelow
  | case4 account steps a below labels cut depth hhere hdepth hpending ih =>
    obtain _ | ⟨hab, hbelow⟩ := hframes
    obtain ⟨pending, rfl⟩ := hab.exists_eq
    rw [← hab.handsOut_eq h] at hhere
    conv => rhs; rw [advance, if_neg hhere, if_neg hdepth, hab.pending_nil hpending]
    exact ih _ hbelow
  | case5 account steps a below labels cut depth hhere hdepth x later hpending _ hsteps =>
    obtain _ | ⟨hab, hbelow⟩ := hframes
    obtain ⟨pending, rfl⟩ := hab.exists_eq
    rw [← hab.handsOut_eq h] at hhere
    obtain ⟨later', hpending', -⟩ := hab.pending_cons hpending
    conv => rhs; rw [advance, if_neg hhere, if_neg hdepth, hpending']
    simp only [if_pos hsteps]
    exact ⟨rfl, rfl, .nil, rfl, rfl⟩
  | case6 account steps a below labels cut depth hhere hdepth x later hpending _ hsteps weight _
      hzero ih =>
    obtain _ | ⟨hab, hbelow⟩ := hframes
    obtain ⟨pending, rfl⟩ := hab.exists_eq
    rw [← hab.handsOut_eq h] at hhere
    obtain ⟨later', hpending', hab'⟩ := hab.pending_cons hpending
    conv => rhs; rw [advance, if_neg hhere, if_neg hdepth, hpending']
    simp only [if_neg hsteps]
    rw [if_pos (show (a.weight * (x.map f).weight).isZero from hzero)]
    exact ih _ (.cons hab' hbelow)
  | case7 account steps a below labels cut depth hhere hdepth x later hpending _ hsteps weight _
      hzero ih =>
    obtain _ | ⟨hab, hbelow⟩ := hframes
    obtain ⟨pending, rfl⟩ := hab.exists_eq
    rw [← hab.handsOut_eq h] at hhere
    obtain ⟨later', hpending', hab'⟩ := hab.pending_cons hpending
    have hx : Known x.target := hab.known_target x (by rw [hpending, LazyList.toList_cons]; simp)
    conv => rhs; rw [advance, if_neg hhere, if_neg hdepth, hpending']
    simp only [if_neg hsteps]
    rw [if_neg (show ¬ (a.weight * (x.map f).weight).isZero from hzero)]
    exact ih _ (.cons (frameImage_enter h hx weight) (.cons hab' hbelow))

/-! ### All calls -/

lemma tally_map (n : Nat) (o : Occurrence σ) : tally n (o.map f) = tally n o := by
  cases o <;> rfl

lemma pulls_image (h : m.Image m' f Known) (limits : Limits) {w : Walk σ L r} {w' : Walk τ L r}
    (hw : Image f Known w w') : pulls m' limits w' = pulls m limits w := by
  have hsame := (sameOutcome_advance h limits tally 0 0 hw).account
  simp only [tally_map] at hsame
  exact hsame

lemma next_image (h : m.Image m' f Known) (limits : Limits) {w : Walk σ L r} {w' : Walk τ L r}
    (hw : Image f Known w w') : (next m' limits w').1 = (next m limits w).1 ∧
      Image f Known (next m limits w).2 (next m' limits w').2 := by
  have hsame := sameOutcome_advance h limits (fun _ _ => ()) () 0 hw
  exact ⟨hsame.path, hsame.later⟩

lemma after_image (h : m.Image m' f Known) (limits : Limits) (n : Nat) {w : Walk σ L r}
    {w' : Walk τ L r} (hw : Image f Known w w') :
    Image f Known (after m limits n w) (after m' limits n w') := by
  induction n generalizing w w' with
  | zero => exact hw
  | succ n ih => exact ih (next_image h limits hw).2

/-- **A walker cannot tell a machine from its image.** Every call gives the same, takes up equally
many arcs, and leaves the same report of whether a path was cut. -/
lemma calls_image (h : m.Image m' f Known) (limits : Limits) (n : Nat) :
    result m' limits n (begin m') = result m limits n (begin m) ∧
      pulls m' limits (after m' limits n (begin m')) = pulls m limits (after m limits n (begin m)) ∧
      (after m' limits n (begin m')).isTruncated = (after m limits n (begin m)).isTruncated :=
  have hn := after_image h limits n (image_begin h)
  ⟨(next_image h limits hn).1, pulls_image h limits hn, hn.isTruncated⟩

end Walk

end WeightedAutomata
