import Mathlib.Algebra.Order.Group.Nat

/-! # Red-black trees with a path

A tree is seen from one of its nodes: the subtree there, and the way up to the root. Insertion makes a red
subtree that may have a red parent (`fixRed`), removal one that has a black node too few (`fixBlack`); both
repair the tree on the way up. -/
namespace RtosKernel.Lib.RedBlack

inductive Color
  | red
  | black
  deriving DecidableEq

inductive RbTree (α : Type)
  | nil
  | node (c : Color) (l : RbTree α) (x : α) (r : RbTree α)
  deriving DecidableEq

variable {α : Type}

namespace RbTree

def isRed : RbTree α → Bool
  | node .red _ _ _ => true
  | _ => false

def blacken : RbTree α → RbTree α
  | nil => nil
  | node _ l x r => node .black l x r

def inorder : RbTree α → List α
  | nil => []
  | node _ l x r => l.inorder ++ x :: r.inorder

/-- The nodes on the longest way down. -/
def depth : RbTree α → Nat
  | nil => 0
  | node _ l _ r => 1 + max l.depth r.depth

/-- A node with `near` on the side `s`; `true` is the right side. -/
def join (s : Bool) (c : Color) (near : RbTree α) (x : α) (far : RbTree α) : RbTree α :=
  if s then node c far x near else node c near x far

/-- The node at the root, with the subtree on the side `s` first. -/
def split (s : Bool) : RbTree α → Option (Color × RbTree α × α × RbTree α)
  | nil => none
  | node c l x r => some (if s then (c, r, x, l) else (c, l, x, r))

section
variable (s : Bool) (c : Color) (a : RbTree α) (x : α) (b : RbTree α)

@[simp] theorem split_join : (join s c a x b).split s = some (c, a, x, b) := by
  cases s <;> rfl

@[simp] theorem isRed_join : (join s c a x b).isRed = decide (c = .red) := by
  cases s <;> cases c <;> rfl

@[simp] theorem blacken_join : (join s c a x b).blacken = join s .black a x b := by
  cases s <;> rfl

@[simp] theorem depth_join : (join s c a x b).depth = 1 + max a.depth b.depth := by
  cases s
  · rfl
  · simp [join, depth, Nat.max_comm]

theorem join_not : join (!s) c b x a = join s c a x b := by
  cases s <;> rfl

end

variable {t t' : RbTree α}

theorem exists_join (s : Bool) (h : t ≠ nil) : ∃ c a x b, t = join s c a x b := by
  cases t with
  | nil => exact absurd rfl h
  | node c l x r =>
    cases s with
    | false => exact ⟨c, l, x, r, rfl⟩
    | true => exact ⟨c, r, x, l, rfl⟩

theorem ne_nil_of_isRed (h : t.isRed = true) : t ≠ nil := by
  rintro rfl
  cases h

theorem exists_red (s : Bool) (h : t.isRed = true) : ∃ a x b, t = join s .red a x b := by
  obtain ⟨c, a, x, b, rfl⟩ := exists_join s (ne_nil_of_isRed h)
  rw [isRed_join] at h
  exact ⟨a, x, b, by rw [of_decide_eq_true h]⟩

@[simp] theorem depth_blacken (t : RbTree α) : t.blacken.depth = t.depth := by
  cases t <;> rfl

@[simp] theorem inorder_blacken (t : RbTree α) : t.blacken.inorder = t.inorder := by
  cases t <;> rfl

@[simp] theorem isRed_blacken (t : RbTree α) : t.blacken.isRed = false := by
  cases t <;> rfl

end RbTree

open RbTree

/-- One step of the way up: the parent, the side on which the subtree hangs, and the other subtree. -/
structure Frame (α : Type) where
  side : Bool
  x : α
  c : Color
  other : RbTree α

def Frame.fill (f : Frame α) (t : RbTree α) : RbTree α := join f.side f.c t f.x f.other

def plug (t : RbTree α) : List (Frame α) → RbTree α
  | [] => t
  | f :: fs => plug (f.fill t) fs

@[simp] theorem plug_nil (t : RbTree α) : plug t [] = t := rfl

@[simp] theorem plug_cons (t : RbTree α) (f : Frame α) (fs : List (Frame α)) : plug t (f :: fs) = plug (f.fill t) fs := rfl

theorem plug_append (t : RbTree α) (fs gs : List (Frame α)) : plug t (fs ++ gs) = plug (plug t fs) gs := by
  induction fs generalizing t with
  | nil => rfl
  | cons f fs ih => exact ih _

/-! ## The order -/

/-- The nodes of a step to the left of the subtree. -/
def Frame.before (f : Frame α) : List α := if f.side then f.other.inorder ++ [f.x] else []

/-- The nodes of a step to the right of the subtree. -/
def Frame.after (f : Frame α) : List α := if f.side then [] else f.x :: f.other.inorder

def before : List (Frame α) → List α
  | [] => []
  | f :: fs => before fs ++ f.before

def after : List (Frame α) → List α
  | [] => []
  | f :: fs => f.after ++ after fs

theorem inorder_fill (f : Frame α) (t : RbTree α) : (f.fill t).inorder = f.before ++ t.inorder ++ f.after := by
  obtain ⟨s, x, c, o⟩ := f
  cases s <;> simp [Frame.fill, Frame.before, Frame.after, join, inorder]

theorem inorder_plug (t : RbTree α) (fs : List (Frame α)) : (plug t fs).inorder = before fs ++ t.inorder ++ after fs := by
  induction fs generalizing t with
  | nil => simp [before, after]
  | cons f fs ih => simp [before, after, ih, inorder_fill]

theorem before_append (fs gs : List (Frame α)) : before (fs ++ gs) = before gs ++ before fs := by
  induction fs with
  | nil => simp [before]
  | cons f fs ih => simp [before, ih]

theorem after_append (fs gs : List (Frame α)) : after (fs ++ gs) = after fs ++ after gs := by
  induction fs with
  | nil => rfl
  | cons f fs ih => simp [after, ih]

theorem inorder_plug_congr (fs : List (Frame α)) (h : t'.inorder = t.inorder) :
    (plug t' fs).inorder = (plug t fs).inorder := by
  rw [inorder_plug, inorder_plug, h]

theorem depth_plug_mono (fs : List (Frame α)) (h : t'.depth ≤ t.depth) : (plug t' fs).depth ≤ (plug t fs).depth := by
  induction fs generalizing t t' with
  | nil => exact h
  | cons f fs ih =>
    refine ih ?_
    simp only [Frame.fill, depth_join]
    omega

theorem length_inorder_lt (t : RbTree α) : t.inorder.length < 2 ^ t.depth := by
  induction t with
  | nil => exact Nat.one_pos
  | node c l x r ihl ihr =>
    simp only [inorder, depth, List.length_append, List.length_cons]
    have hl : 2 ^ l.depth ≤ 2 ^ max l.depth r.depth := Nat.pow_le_pow_right Nat.two_pos (Nat.le_max_left ..)
    have hr : 2 ^ r.depth ≤ 2 ^ max l.depth r.depth := Nat.pow_le_pow_right Nat.two_pos (Nat.le_max_right ..)
    rw [Nat.pow_add, Nat.pow_one]
    omega

theorem length_add_depth_le (t : RbTree α) (fs : List (Frame α)) : fs.length + t.depth ≤ (plug t fs).depth := by
  induction fs generalizing t with
  | nil => simp
  | cons f fs ih =>
    have h := ih (f.fill t)
    simp only [Frame.fill, depth_join] at h
    simp only [List.length_cons, plug_cons, Frame.fill]
    omega

theorem depth_plug_le {fs : List (Frame α)} {d : Nat} (ht : (plug t fs).depth ≤ d)
    (h : t'.depth ≤ t.depth ∨ fs.length + t'.depth ≤ d) : (plug t' fs).depth ≤ d := by
  induction fs generalizing t t' with
  | nil =>
    simp only [plug_nil, List.length_nil] at ht h ⊢
    omega
  | cons f fs ih =>
    have hother := length_add_depth_le (f.fill t) fs
    simp only [List.length_cons] at h
    refine ih ht ?_
    simp only [Frame.fill, depth_join] at hother ⊢
    omega

/-! ## The colours -/

/-- Every way down has `n` black nodes, and no red node has a red child. -/
def Balanced : Nat → RbTree α → Prop
  | n, nil => n = 0
  | n, node .red l _ r => Balanced n l ∧ Balanced n r ∧ l.isRed = false ∧ r.isRed = false
  | n, node .black l _ r => ∃ m, n = m + 1 ∧ Balanced m l ∧ Balanced m r

variable {n N : Nat} {t a b : RbTree α} {x : α} {f g : Frame α} {fs : List (Frame α)} {s : Bool}

@[simp] theorem balanced_nil : Balanced n (nil : RbTree α) ↔ n = 0 := Iff.rfl

theorem balanced_red : Balanced n (join s .red a x b) ↔ Balanced n a ∧ Balanced n b ∧ a.isRed = false ∧ b.isRed = false := by
  cases s
  · exact Iff.rfl
  · exact ⟨fun ⟨hb, ha, hbr, har⟩ => ⟨ha, hb, har, hbr⟩, fun ⟨ha, hb, har, hbr⟩ => ⟨hb, ha, hbr, har⟩⟩

theorem balanced_black : Balanced n (join s .black a x b) ↔ ∃ m, n = m + 1 ∧ Balanced m a ∧ Balanced m b := by
  cases s
  · exact Iff.rfl
  · exact exists_congr fun m => and_congr_right' and_comm

@[simp] theorem balanced_black_succ : Balanced (n + 1) (join s .black a x b) ↔ Balanced n a ∧ Balanced n b := by
  rw [balanced_black]
  constructor
  · rintro ⟨m, hm, h⟩
    cases hm
    exact h
  · exact fun h => ⟨n, rfl, h⟩

theorem Balanced.blacken_red (h : Balanced n t) (hred : t.isRed = true) : Balanced (n + 1) t.blacken := by
  obtain ⟨a, x, b, rfl⟩ := exists_red false hred
  rw [blacken_join, balanced_black_succ]
  exact ⟨(balanced_red.mp h).1, (balanced_red.mp h).2.1⟩

theorem Balanced.depth_le (h : Balanced n t) : t.depth ≤ 2 * n + if t.isRed then 1 else 0 := by
  induction t generalizing n with
  | nil => simp [depth]
  | node c l x r ihl ihr =>
    cases c with
    | red =>
      obtain ⟨hl, hr, hlr, hrr⟩ := h
      have hdl := ihl hl
      have hdr := ihr hr
      simp only [hlr, hrr] at hdl hdr
      simp [depth, isRed] at hdl hdr ⊢
      omega
    | black =>
      obtain ⟨m, rfl, hl, hr⟩ := h
      have hdl := ihl hl
      have hdr := ihr hr
      simp only [depth, isRed]
      split at hdl <;> split at hdr <;> simp <;> omega

/-- The way up takes a subtree with `n` black nodes, red if `red`, to a tree with `N`. -/
def Fits : Bool → Nat → List (Frame α) → Nat → Prop
  | red, n, [], N => red = false ∧ n = N
  | red, n, f :: fs, N => Balanced n f.other ∧
      match f.c with
      | .red => red = false ∧ f.other.isRed = false ∧ Fits true n fs N
      | .black => Fits false (n + 1) fs N

theorem Fits.of_red (h : Fits true n fs N) : Fits false n fs N := by
  cases fs with
  | nil => cases h.1
  | cons f fs =>
    obtain ⟨s, x, c, o⟩ := f
    cases c with
    | red => cases h.2.1
    | black => exact h

theorem Fits.tail (h : Fits s n (f :: fs) N) : ∃ k, Fits false k fs N := by
  obtain ⟨side, x, c, o⟩ := f
  cases c with
  | red => exact ⟨n, h.2.2.2.of_red⟩
  | black => exact ⟨n + 1, h.2⟩

theorem Fits.length_le (h : Fits s n fs N) : n ≤ N ∧ fs.length + (if s then 1 else 0) + 2 * n ≤ 2 * N := by
  induction fs generalizing s n with
  | nil =>
    obtain ⟨rfl, rfl⟩ := h
    simp
  | cons f fs ih =>
    obtain ⟨side, x, c, o⟩ := f
    cases c with
    | red =>
      obtain ⟨_, rfl, _, h⟩ := h
      have hih := ih h
      simp at hih ⊢
      omega
    | black =>
      have hih := ih h.2
      simp only [List.length_cons] at hih ⊢
      simp at hih
      split <;> omega

theorem Balanced.plug (h : Balanced n t) (hfits : Fits t.isRed n fs N) :
    Balanced N (plug t fs) ∧ (RedBlack.plug t fs).isRed = false := by
  induction fs generalizing t n with
  | nil =>
    obtain ⟨hred, rfl⟩ := hfits
    exact ⟨h, hred⟩
  | cons f fs ih =>
    obtain ⟨side, x, c, o⟩ := f
    obtain ⟨ho, hrest⟩ := hfits
    cases c with
    | red =>
      obtain ⟨hred, hored, hrest⟩ := hrest
      refine ih (n := n) (balanced_red.mpr ⟨h, ho, hred, hored⟩) ?_
      simpa [Frame.fill] using hrest
    | black =>
      refine ih (n := n + 1) (balanced_black_succ.mpr ⟨h, ho⟩) ?_
      simpa [Frame.fill] using hrest

theorem Fits.down (h : Balanced n (f.fill t)) (hfits : Fits (f.fill t).isRed n fs N) :
    ∃ m, Balanced m t ∧ Fits t.isRed m (f :: fs) N := by
  obtain ⟨side, x, c, o⟩ := f
  cases c with
  | red =>
    obtain ⟨ht, ho, htred, hored⟩ := balanced_red.mp h
    refine ⟨n, ht, ho, htred, hored, ?_⟩
    simpa [Frame.fill] using hfits
  | black =>
    obtain ⟨m, rfl, ht, ho⟩ := balanced_black.mp h
    refine ⟨m, ht, ho, ?_⟩
    simpa [Frame.fill] using hfits

theorem Fits.of_plug (h : Balanced N (plug t fs)) (hroot : (plug t fs).isRed = false) :
    ∃ m, Balanced m t ∧ Fits t.isRed m fs N := by
  induction fs generalizing t with
  | nil => exact ⟨N, h, hroot, rfl⟩
  | cons f fs ih =>
    obtain ⟨m, hbal, hfits⟩ := ih h hroot
    exact Fits.down hbal hfits

theorem Balanced.of_zero (h : Balanced 0 t) : t = nil ∨ ∃ x, t = join false .red nil x nil := by
  cases t with
  | nil => exact .inl rfl
  | node c l x r =>
    cases c with
    | black =>
      obtain ⟨m, hm, _⟩ := h
      cases hm
    | red =>
      obtain ⟨hl, hr, hlr, hrr⟩ := h
      have hdl := hl.depth_le
      have hdr := hr.depth_le
      simp only [hlr, hrr] at hdl hdr
      cases l with
      | nil =>
        cases r with
        | nil => exact .inr ⟨x, rfl⟩
        | node => simp [depth] at hdr
      | node => simp [depth] at hdl

theorem Fits.relabel {r : Bool} {x y : α} {c : Color} {o : RbTree α} {gs : List (Frame α)}
    (h : Fits r n (gs ++ ⟨s, x, c, o⟩ :: fs) N) : Fits r n (gs ++ ⟨s, y, c, o⟩ :: fs) N := by
  induction gs generalizing r n with
  | nil => exact h
  | cons g gs ih =>
    obtain ⟨side, z, d, p⟩ := g
    cases d with
    | red => exact ⟨h.1, h.2.1, h.2.2.1, ih h.2.2.2⟩
    | black => exact ⟨h.1, ih h.2⟩

theorem depth_relabel {x y : α} {c : Color} {o : RbTree α} {gs : List (Frame α)} (h : t'.depth ≤ t.depth) :
    (plug t' (gs ++ ⟨s, y, c, o⟩ :: fs)).depth ≤ (plug t (gs ++ ⟨s, x, c, o⟩ :: fs)).depth := by
  rw [plug_append, plug_append]
  refine depth_plug_mono fs ?_
  have := depth_plug_mono gs h
  simp only [Frame.fill, depth_join]
  omega

theorem balanced_relabel {x y : α} {c : Color} (h : Balanced n (join s c a x b)) : Balanced n (join s c a y b) := by
  cases c with
  | red => exact balanced_red.mpr (balanced_red.mp h)
  | black => exact balanced_black.mpr (balanced_black.mp h)

/-- The way down that a search for `x` takes. -/
def Leads [LT α] (x : α) (fs : List (Frame α)) : Prop := ∀ f ∈ fs, if f.side then f.x < x else x < f.x

theorem Leads.before_lt [Preorder α] (h : Leads x fs) (hsorted : (plug t fs).inorder.Pairwise (· < ·)) :
    ∀ y ∈ before fs, y < x := by
  induction fs generalizing t with
  | nil => exact fun y hy => by cases hy
  | cons f fs ih =>
    intro y hy
    rcases List.mem_append.mp hy with hy | hy
    · exact ih (fun g hg => h g (List.mem_cons_of_mem _ hg)) hsorted y hy
    · have hx := h f (List.mem_cons_self ..)
      obtain ⟨side, z, c, o⟩ := f
      cases side with
      | false => cases hy
      | true =>
        have hz : z < x := hx
        rw [plug_cons, inorder_plug, inorder_fill] at hsorted
        have hf := (List.pairwise_append.mp (List.pairwise_append.mp hsorted).1).2.1
        have ho := (List.pairwise_append.mp (List.pairwise_append.mp hf).1).1
        rcases List.mem_append.mp hy with hy | hy
        · exact ((List.pairwise_append.mp ho).2.2 y hy z (List.mem_singleton_self z)).trans hz
        · rwa [List.mem_singleton.mp hy]

theorem Leads.lt_after [Preorder α] (h : Leads x fs) (hsorted : (plug t fs).inorder.Pairwise (· < ·)) :
    ∀ y ∈ after fs, x < y := by
  induction fs generalizing t with
  | nil => exact fun y hy => by cases hy
  | cons f fs ih =>
    intro y hy
    rcases List.mem_append.mp hy with hy | hy
    · have hx := h f (List.mem_cons_self ..)
      obtain ⟨side, z, c, o⟩ := f
      cases side with
      | true => cases hy
      | false =>
        have hz : x < z := hx
        rw [plug_cons, inorder_plug, inorder_fill] at hsorted
        have hf := (List.pairwise_append.mp (List.pairwise_append.mp hsorted).1).2.1
        have ho := (List.pairwise_append.mp hf).2.1
        rcases List.mem_cons.mp hy with rfl | hy
        · exact hz
        · exact hz.trans (List.rel_of_pairwise_cons ho hy)
    · exact ih (fun g hg => h g (List.mem_cons_of_mem _ hg)) hsorted y hy

/-! ## A red node too many -/

/-- The red parent `f` of a red subtree takes the place of the grandparent `g`, an inner subtree first that of
the outer one. -/
def raise (f g : Frame α) (t : RbTree α) : RbTree α :=
  if f.side = g.side then join g.side .black t f.x (join g.side .red f.other g.x g.other)
  else
    match t.split g.side with
    | none => g.fill (f.fill t)
    | some (_, a, y, b) => join g.side .black (join g.side .red f.other f.x a) y (join g.side .red b g.x g.other)

/-- The parent and the aunt become black, and the grandparent red. -/
def recolor (f g : Frame α) (t : RbTree α) : RbTree α :=
  join g.side .red (join f.side .black t f.x f.other) g.x g.other.blacken

/-- A subtree with a red root, which may have a red parent, is put into its place. -/
def fixRed : RbTree α → List (Frame α) → RbTree α
  | t, [] => t.blacken
  | t, [f] => f.fill t
  | t, f :: g :: fs =>
    if f.c = .black then plug t (f :: g :: fs)
    else if g.other.isRed then fixRed (recolor f g t) fs
    else plug (raise f g t) fs

theorem inorder_join (s : Bool) (c : Color) (a : RbTree α) (x : α) (b : RbTree α) :
    (join s c a x b).inorder = if s then b.inorder ++ x :: a.inorder else a.inorder ++ x :: b.inorder := by
  cases s <;> rfl

theorem raise_inorder (ht : t ≠ nil) : (raise f g t).inorder = (g.fill (f.fill t)).inorder := by
  obtain ⟨side, x, c, o⟩ := f
  obtain ⟨s, y, d, p⟩ := g
  obtain ⟨e, a, z, b, rfl⟩ := exists_join s ht
  simp only [raise, Frame.fill, split_join, inorder_join]
  cases side <;> cases s <;> simp [inorder_join]

theorem recolor_inorder : (recolor f g t).inorder = (g.fill (f.fill t)).inorder := by
  simp [recolor, Frame.fill, inorder_join]

theorem fixRed_inorder (ht : t ≠ nil) : (fixRed t fs).inorder = (plug t fs).inorder := by
  fun_induction fixRed t fs with
  | case1 t => exact inorder_blacken t
  | case2 t f => rfl
  | case3 => rfl
  | case4 t f g fs hc hred ih =>
    have hne : recolor f g t ≠ nil := by
      intro h
      simp only [recolor, join] at h
      split at h <;> cases h
    rw [ih hne]
    exact inorder_plug_congr fs recolor_inorder
  | case5 t f g fs => exact inorder_plug_congr fs (raise_inorder ht)

section
variable (ht : Balanced n t) (hred : t.isRed = true)
include ht hred

theorem raise_balanced (hf : Balanced n f.other) (hfr : f.other.isRed = false)
    (hg : Balanced n g.other) (hgr : g.other.isRed = false) :
    Balanced (n + 1) (raise f g t) ∧ (raise f g t).isRed = false := by
  obtain ⟨side, x, c, o⟩ := f
  obtain ⟨s, y, d, p⟩ := g
  obtain ⟨a, z, b, rfl⟩ := exists_red s hred
  obtain ⟨ha, hb, har, hbr⟩ := balanced_red.mp ht
  by_cases hside : side = s
  · simp [raise, hside, balanced_red, ha, hb, har, hbr, hf, hfr, hg, hgr]
  · simp [raise, hside, balanced_red, ha, hb, har, hbr, hf, hfr, hg, hgr]

theorem raise_depth (hdeep : t.depth = 2 * n + 1) (hg : Balanced n g.other)
    (hgr : g.other.isRed = false) : (raise f g t).depth ≤ (g.fill (f.fill t)).depth := by
  have haunt := hg.depth_le
  obtain ⟨side, x, c, o⟩ := f
  obtain ⟨s, y, d, p⟩ := g
  obtain ⟨a, z, b, rfl⟩ := exists_red s hred
  simp only [hgr, Bool.false_eq_true, if_false, Nat.add_zero] at haunt
  simp only [depth_join] at hdeep
  by_cases hside : side = s
  · simp only [raise, hside, if_true, Frame.fill, depth_join]
    omega
  · simp only [raise, hside, if_false, Frame.fill, depth_join, split_join]
    omega

theorem fixRed_spec (hdeep : t.depth = 2 * n + 1) (hfits : Fits false n fs N) :
    (fixRed t fs).isRed = false ∧ (fixRed t fs).depth ≤ (plug t fs).depth ∧
      (Balanced N (fixRed t fs) ∨ (Balanced (N + 1) (fixRed t fs) ∧ 2 * N + 1 ≤ (plug t fs).depth)) := by
  fun_induction fixRed t fs generalizing n with
  | case1 t =>
    obtain ⟨-, rfl⟩ := hfits
    exact ⟨isRed_blacken t, (depth_blacken t).le, .inr ⟨ht.blacken_red hred, hdeep.ge⟩⟩
  | case2 t f =>
    obtain ⟨side, x, c, o⟩ := f
    obtain ⟨ho, hrest⟩ := hfits
    cases c with
    | red => cases hrest.2.2.1
    | black =>
      obtain ⟨-, rfl⟩ := hrest
      exact ⟨by simp [Frame.fill], le_rfl, .inl (balanced_black_succ.mpr ⟨ht, ho⟩)⟩
  | case3 t f g fs hc =>
    have hplug : Fits true n (f :: g :: fs) N := by
      obtain ⟨side, x, c, o⟩ := f
      cases hc
      exact hfits
    rw [← hred] at hplug
    obtain ⟨hbal, hroot⟩ := ht.plug hplug
    exact ⟨hroot, le_rfl, .inl hbal⟩
  | case4 t f g fs hc haunt ih =>
    obtain ⟨side, x, c, o⟩ := f
    obtain ⟨s, y, d, p⟩ := g
    cases c with
    | black => exact absurd rfl hc
    | red =>
      obtain ⟨ho, -, hor, hp, hd⟩ := hfits
      cases d with
      | red => cases hd.1
      | black =>
        have hbal : Balanced (n + 1) (recolor ⟨side, x, .red, o⟩ ⟨s, y, .black, p⟩ t) :=
          balanced_red.mpr ⟨balanced_black_succ.mpr ⟨ht, ho⟩, hp.blacken_red haunt, by simp, isRed_blacken p⟩
        have hle := hbal.depth_le
        have hsame : (recolor ⟨side, x, .red, o⟩ ⟨s, y, .black, p⟩ t).depth =
            (Frame.fill ⟨s, y, .black, p⟩ (Frame.fill ⟨side, x, .red, o⟩ t)).depth := by
          simp [recolor, Frame.fill]
        have hdeep' : (recolor ⟨side, x, .red, o⟩ ⟨s, y, .black, p⟩ t).depth = 2 * (n + 1) + 1 := by
          simp [recolor] at hle ⊢
          omega
        obtain ⟨hroot, hdepth, hgrow⟩ := ih hbal (by simp [recolor]) hdeep' hd
        have hmono := depth_plug_mono fs hsame.le
        exact ⟨hroot, hdepth.trans hmono, hgrow.imp_right fun h => ⟨h.1, h.2.trans hmono⟩⟩
  | case5 t f g fs hc haunt =>
    obtain ⟨side, x, c, o⟩ := f
    obtain ⟨s, y, d, p⟩ := g
    cases c with
    | black => exact absurd rfl hc
    | red =>
      obtain ⟨ho, -, hor, hp, hd⟩ := hfits
      cases d with
      | red => cases hd.1
      | black =>
        have hpr : p.isRed = false := by simpa using haunt
        obtain ⟨hbal, hroot⟩ := raise_balanced (f := ⟨side, x, .red, o⟩) (g := ⟨s, y, .black, p⟩) ht hred ho hor hp hpr
        have hdepth := raise_depth (f := ⟨side, x, .red, o⟩) (g := ⟨s, y, .black, p⟩) ht hred hdeep hp hpr
        rw [← hroot] at hd
        obtain ⟨hall, hall'⟩ := hbal.plug hd
        exact ⟨hall', depth_plug_mono fs hdepth, .inl hall⟩

end

/-! ## A black node too few -/

/-- The subtree lacks a black node, and its sibling is black. The second component says whether it
lacks no more. -/
def settle (t : RbTree α) (f : Frame α) : RbTree α × Bool :=
  match f.other.split f.side with
  | none => (f.fill t, true)
  | some (_, a, x, b) =>
    if a.isRed = false ∧ b.isRed = false then (join f.side .black t f.x (join f.side .red a x b), f.c = .red)
    else if b.isRed then (join f.side f.c (join f.side .black t f.x a) x b.blacken, true)
    else
      match a.split f.side with
      | none => (f.fill t, true)
      | some (_, a1, y, a2) => (join f.side f.c (join f.side .black t f.x a1) y (join f.side .black a2 x b), true)

/-- The subtree lacks a black node. A red sibling first takes the place of the parent. -/
def level (t : RbTree α) (f : Frame α) : RbTree α × Bool :=
  if f.other.isRed then
    match f.other.split f.side with
    | none => (f.fill t, true)
    | some (_, a, x, b) =>
      (join f.side .black (settle t ⟨f.side, f.x, .red, a⟩).1 x b, (settle t ⟨f.side, f.x, .red, a⟩).2)
  else settle t f

/-- A subtree that lacks a black node is put into its place. -/
def fixBlack : RbTree α → List (Frame α) → RbTree α
  | t, [] => t
  | t, f :: fs => if (level t f).2 then plug (level t f).1 fs else fixBlack (level t f).1 fs

theorem settle_inorder : (settle t f).1.inorder = (f.fill t).inorder := by
  obtain ⟨s, x, c, o⟩ := f
  cases o with
  | nil => rfl
  | node e l y r =>
    obtain ⟨e', a, z, b, ho⟩ := exists_join s (t := .node e l y r) (by simp)
    rw [ho]
    simp only [settle, split_join, Frame.fill]
    split
    · simp [inorder_join]
    · split
      · cases s <;> simp [inorder_join]
      · cases ha : a.split s with
        | none => rfl
        | some q =>
          cases a with
          | nil => cases ha
          | node e2 l2 y2 r2 =>
            obtain ⟨e3, a1, w, a2, ha2⟩ := exists_join s (t := .node e2 l2 y2 r2) (by simp)
            rw [ha2, split_join] at ha
            cases ha
            rw [ha2]
            cases s <;> simp [inorder_join]

theorem level_inorder : (level t f).1.inorder = (f.fill t).inorder := by
  unfold level
  split
  · rename_i hred
    obtain ⟨s, x, c, o⟩ := f
    obtain ⟨a, y, b, rfl⟩ := exists_red s hred
    simp only [split_join]
    rw [inorder_join, settle_inorder]
    cases s <;> simp [Frame.fill, inorder_join]
  · exact settle_inorder

theorem fixBlack_inorder : (fixBlack t fs).inorder = (plug t fs).inorder := by
  fun_induction fixBlack t fs with
  | case1 t => rfl
  | case2 t f fs => exact inorder_plug_congr fs level_inorder
  | case3 t f fs hdone ih => rw [ih, inorder_plug_congr fs level_inorder, plug_cons]

theorem settle_done (hc : f.c = .red) : (settle t f).2 = true := by
  unfold settle
  split
  · rfl
  · split
    · simp [hc]
    · split
      · rfl
      · split <;> rfl

section
variable (ht : Balanced n t) (htr : t.isRed = false)
include ht htr

theorem settle_balanced (hf : Balanced (n + 1) f.other) (hfr : f.other.isRed = false) :
    (f.c = .red → (settle t f).2 = true ∧ Balanced (n + 1) (settle t f).1) ∧
      (f.c = .black → (settle t f).1.isRed = false ∧
        Balanced (if (settle t f).2 then n + 2 else n + 1) (settle t f).1) ∧
      (settle t f).1.depth ≤ max (f.fill t).depth (2 * n + 2) ∧
      ((settle t f).2 = false → (settle t f).1.depth = (f.fill t).depth) := by
  obtain ⟨s, x, c, o⟩ := f
  have hdepth := ht.depth_le
  simp only [htr, Bool.false_eq_true, if_false, Nat.add_zero] at hdepth
  cases o with
  | nil => cases hf
  | node e l y r =>
    obtain ⟨e', a, z, b, ho⟩ := exists_join s (t := .node e l y r) (by simp)
    rw [ho] at hf hfr
    rw [isRed_join] at hfr
    cases e' with
    | red => simp at hfr
    | black =>
      obtain ⟨ha, hb⟩ := balanced_black_succ.mp hf
      simp only [settle, ho, split_join]
      by_cases hboth : a.isRed = false ∧ b.isRed = false
      · obtain ⟨har, hbr⟩ := hboth
        cases c <;> simp [Frame.fill, har, hbr, balanced_red, ht, ha, hb, Nat.le_max_left]
      · rw [if_neg hboth]
        cases hbr : b.isRed with
        | true =>
          have hbb := hb.blacken_red hbr
          rw [if_pos rfl]
          refine ⟨?_, ?_, ?_, by simp⟩
          · rintro rfl
            exact ⟨rfl, balanced_red.mpr ⟨balanced_black_succ.mpr ⟨ht, ha⟩, hbb, by simp, isRed_blacken b⟩⟩
          · rintro rfl
            exact ⟨by simp, balanced_black_succ.mpr ⟨balanced_black_succ.mpr ⟨ht, ha⟩, hbb⟩⟩
          · simp only [Frame.fill, depth_join, depth_blacken]
            omega
        | false =>
          have har : a.isRed = true := by simpa [hbr] using hboth
          obtain ⟨a1, w, a2, rfl⟩ := exists_red s har
          obtain ⟨h1, h2, h1r, h2r⟩ := balanced_red.mp ha
          simp only [split_join, Bool.false_eq_true, if_false]
          refine ⟨?_, ?_, ?_, by simp⟩
          · rintro rfl
            simp [balanced_red, ht, h1, h2, hb]
          · rintro rfl
            simp [ht, h1, h2, hb]
          · simp only [Frame.fill, depth_join]
            omega

theorem level_spec (hfits : Fits false (n + 1) (f :: fs) N) :
    ((level t f).2 = true → ∃ m, Balanced m (level t f).1 ∧ Fits (level t f).1.isRed m fs N ∧
        ((level t f).1.depth ≤ (f.fill t).depth ∨ fs.length + (level t f).1.depth ≤ max (plug t (f :: fs)).depth (2 * N - 1))) ∧
      ((level t f).2 = false → Balanced (n + 1) (level t f).1 ∧ (level t f).1.isRed = false ∧
        Fits false (n + 2) fs N ∧ (level t f).1.depth = (f.fill t).depth) := by
  have hdepth := ht.depth_le
  simp only [htr, Bool.false_eq_true, if_false, Nat.add_zero] at hdepth
  have hall := length_add_depth_le (f.fill t) fs
  obtain ⟨s, x, c, o⟩ := f
  obtain ⟨ho, hrest⟩ := hfits
  by_cases hor : o.isRed = true
  · -- the sibling is red, and the parent is black
    cases c with
    | red =>
      rw [hrest.2.1] at hor
      cases hor
    | black =>
      obtain ⟨a, y, b, rfl⟩ := exists_red s hor
      obtain ⟨ha, hb, har, hbr⟩ := balanced_red.mp ho
      obtain ⟨hred, -, hle, -⟩ := settle_balanced (f := ⟨s, x, .red, a⟩) ht htr ha har
      obtain ⟨hdone, hbal⟩ := hred rfl
      have hlong := hrest.length_le
      have hnew : level t ⟨s, x, .black, join s .red a y b⟩ =
          (join s .black (settle t ⟨s, x, .red, a⟩).1 y b, true) := by simp [level, hdone]
      rw [hnew]
      refine ⟨fun _ => ⟨n + 2, balanced_black_succ.mpr ⟨hbal, hb⟩, by simpa using hrest, .inr ?_⟩, fun h => by cases h⟩
      simp only [plug_cons, Frame.fill, depth_join] at hall hle ⊢
      omega
  · have hor : o.isRed = false := by simpa using hor
    obtain ⟨hred, hblack, hle, hsame⟩ := settle_balanced (f := ⟨s, x, c, o⟩) ht htr ho hor
    have hnew : level t ⟨s, x, c, o⟩ = settle t ⟨s, x, c, o⟩ := by simp [level, hor]
    rw [hnew]
    cases c with
    | red =>
      obtain ⟨-, -, hrest⟩ := hrest
      obtain ⟨hdone, hbal⟩ := hred rfl
      have hlong := hrest.length_le
      refine ⟨fun _ => ⟨n + 1, hbal, ?_, .inr ?_⟩, fun h => by rw [hdone] at h; cases h⟩
      · cases (settle t ⟨s, x, .red, o⟩).1.isRed with
        | true => exact hrest
        | false => exact hrest.of_red
      · simp only [plug_cons]
        simp only [if_true] at hlong
        omega
    | black =>
      obtain ⟨hroot, hbal⟩ := hblack rfl
      have hlong := hrest.length_le
      refine ⟨fun hdone => ?_, fun hdone => ?_⟩
      · rw [if_pos hdone] at hbal
        refine ⟨n + 2, hbal, by rw [hroot]; exact hrest, .inr ?_⟩
        simp only [plug_cons]
        omega
      · rw [if_neg (by simp [hdone])] at hbal
        exact ⟨hbal, hroot, hrest, hsame hdone⟩

/-- A subtree that goes down has two black nodes above each other, so that it is not as deep as the
black nodes allow. -/
theorem fixBlack_spec (hfits : Fits false (n + 1) fs N) :
    (fixBlack t fs).isRed = false ∧ ∃ m ≤ N, Balanced m (fixBlack t fs) ∧
      (fixBlack t fs).depth ≤ max (plug t fs).depth (2 * N - 1) := by
  fun_induction fixBlack t fs generalizing n with
  | case1 t =>
    obtain ⟨-, rfl⟩ := hfits
    exact ⟨htr, n, by omega, ht, le_max_left _ _⟩
  | case2 t f fs hdone =>
    obtain ⟨m, hbal, hfit, hdepth⟩ := (level_spec ht htr hfits).1 hdone
    obtain ⟨hall, hroot⟩ := hbal.plug hfit
    exact ⟨hroot, N, le_rfl, hall, depth_plug_le (t := f.fill t) (le_max_left _ _) hdepth⟩
  | case3 t f fs hdone ih =>
    obtain ⟨hbal, hroot, hfit, hsame⟩ := (level_spec ht htr hfits).2 (by simpa using hdone)
    obtain ⟨hroot', m, hm, hbal', hdepth⟩ := ih hbal hroot hfit
    refine ⟨hroot', m, hm, hbal', hdepth.trans ?_⟩
    have := depth_plug_mono fs hsame.le
    simp only [plug_cons]
    omega

end

end RtosKernel.Lib.RedBlack
