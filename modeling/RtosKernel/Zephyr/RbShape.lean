import Mathlib.Data.List.Induction
import Mathlib.Tactic.Tauto
import RtosKernel.Zephyr.Rb

/-! # The tree in memory

The memory holds a tree below a pointer (`Owns`), and a way up to the root
(`OwnsPath`) whose nodes are the entries of the stack. Together they are a view of
the whole tree from one of its nodes (`View`); the functions of the code change the
view as the operations on trees with a path do. -/
namespace RtosKernel.Zephyr.Rb
open Lib.RedBlack List Function
open Lib.RedBlack.RbTree (join)

variable {Node : Type} {h h' : Heap Node}

variable {o a' b' : RbTree Node} {m z : Node} {d c' : Color} {s' : Bool} {k N cap : Nat}

def Owns (h : Heap Node) : Option Node → RbTree Node → Prop
  | p, .nil => p = none
  | p, .node c l x r => p = some x ∧ (h x).color = c ∧ Owns h ((h x).children false) l ∧ Owns h ((h x).children true) r

def OwnsPath (h : Heap Node) : Option Node → List (Frame Node) → Prop
  | _, [] => True
  | p, f :: fs => (h f.x).color = f.c ∧ (h f.x).children f.side = p ∧ Owns h ((h f.x).children (!f.side)) f.other ∧
      OwnsPath h (some f.x) fs

/-- The nodes of a way up, and of the trees that hang on it. -/
def pathNodes : List (Frame Node) → List Node
  | [] => []
  | f :: fs => f.x :: (f.other.inorder ++ pathNodes fs)

/-- The entries of the stack below a node. -/
def stackOf (fs : List (Frame Node)) : List Node := fs.map Frame.x

variable {p q : Option Node} {t t' a b : RbTree Node} {fs gs : List (Frame Node)} {f : Frame Node} {n x y : Node} {s : Bool}
  {c : Color}

theorem owns_join : Owns h p (join s c a x b) ↔ p = some x ∧ (h x).color = c ∧ Owns h ((h x).children s) a ∧
    Owns h ((h x).children (!s)) b := by
  cases s
  · exact Iff.rfl
  · exact ⟨fun ⟨hp, hc, hb, ha⟩ => ⟨hp, hc, ha, hb⟩, fun ⟨hp, hc, ha, hb⟩ => ⟨hp, hc, hb, ha⟩⟩

@[simp] theorem mem_join : y ∈ (join s c a x b).inorder ↔ y = x ∨ y ∈ a.inorder ∨ y ∈ b.inorder := by
  cases s
  · simp only [inorder_join, Bool.false_eq_true, if_false, mem_append, mem_cons]
    tauto
  · simp only [inorder_join, if_true, mem_append, mem_cons]
    tauto

theorem perm_join : (join s c a x b).inorder.Perm (x :: (a.inorder ++ b.inorder)) := by
  cases s
  · exact perm_middle
  · exact perm_middle.trans (perm_append_comm.cons x)

@[simp] theorem pathNodes_nil : pathNodes ([] : List (Frame Node)) = [] := rfl

@[simp] theorem pathNodes_cons : pathNodes (f :: fs) = f.x :: (f.other.inorder ++ pathNodes fs) := rfl

theorem pathNodes_append : pathNodes (fs ++ gs) = pathNodes fs ++ pathNodes gs := by
  induction fs with
  | nil => rfl
  | cons f fs ih => simp [ih]

theorem perm_plug (t : RbTree Node) (fs : List (Frame Node)) : (plug t fs).inorder.Perm (t.inorder ++ pathNodes fs) := by
  induction fs generalizing t with
  | nil => simp
  | cons f fs ih =>
    refine (ih (f.fill t)).trans ?_
    refine (perm_join.append_right _).trans ?_
    simp only [cons_append, pathNodes_cons, append_assoc]
    exact perm_middle.symm

theorem mem_plug : y ∈ (plug t fs).inorder ↔ y ∈ t.inorder ∨ y ∈ pathNodes fs := by
  rw [(perm_plug t fs).mem_iff, mem_append]

theorem Owns.eq_none (ho : Owns h none t) : t = .nil := by
  cases t with
  | nil => rfl
  | node c l x r => cases ho.1

theorem Owns.mem (ho : Owns h (some x) t) : x ∈ t.inorder := by
  cases t with
  | nil => cases ho
  | node c l y r =>
    cases ho.1
    simp [RbTree.inorder]

theorem Owns.exists_join (s : Bool) (ho : Owns h (some x) t) : ∃ c a b, t = join s c a x b := by
  cases t with
  | nil => cases ho
  | node c l y r =>
    cases ho.1
    cases s with
    | false => exact ⟨c, l, r, rfl⟩
    | true => exact ⟨c, r, l, rfl⟩

theorem Owns.isRed (ho : Owns h (some x) t) : Rb.isRed h x = t.isRed := by
  cases t with
  | nil => cases ho
  | node c l y r =>
    obtain ⟨hx, hc, _⟩ := ho
    cases hx
    cases c <;> simp [Rb.isRed, getColor, hc, RbTree.isRed]

theorem Owns.isBlack (ho : Owns h (some x) t) : Rb.isBlack h x = !t.isRed := by
  cases t with
  | nil => cases ho
  | node c l y r =>
    obtain ⟨hx, hc, _⟩ := ho
    cases hx
    cases c <;> simp [Rb.isBlack, getColor, hc, RbTree.isRed]

theorem Owns.filter_isRed (ho : Owns h p t) : p.filter (Rb.isRed h) = if t.isRed then p else none := by
  cases p with
  | none =>
    rw [ho.eq_none]
    rfl
  | some x => cases hred : t.isRed <;> simp [Option.filter, ho.isRed, hred]

theorem Owns.nullOrBlack (ho : Owns h p t) : Rb.nullOrBlack h p = !t.isRed := by
  cases p with
  | none =>
    rw [ho.eq_none]
    rfl
  | some x => exact ho.isBlack

/-! ## Other nodes -/

theorem Owns.congr (ho : Owns h p t) (hsame : ∀ y ∈ t.inorder, h' y = h y) : Owns h' p t := by
  induction t generalizing p with
  | nil => exact ho
  | node c l x r ihl ihr =>
    obtain ⟨hp, hc, hl, hr⟩ := ho
    have hx : h' x = h x := hsame x (by simp [RbTree.inorder])
    refine ⟨hp, by rw [hx]; exact hc, ?_, ?_⟩
    · rw [hx]
      exact ihl hl fun y hy => hsame y (by simp [RbTree.inorder, hy])
    · rw [hx]
      exact ihr hr fun y hy => hsame y (by simp [RbTree.inorder, hy])

theorem OwnsPath.congr (ho : OwnsPath h p fs) (hsame : ∀ y ∈ pathNodes fs, h' y = h y) : OwnsPath h' p fs := by
  induction fs generalizing p with
  | nil => trivial
  | cons f fs ih =>
    obtain ⟨hc, hp, hother, hrest⟩ := ho
    have hx : h' f.x = h f.x := hsame f.x (by simp)
    refine ⟨by rw [hx]; exact hc, by rw [hx]; exact hp, ?_, ih hrest fun y hy => hsame y (by simp [hy])⟩
    rw [hx]
    exact hother.congr fun y hy => hsame y (by simp [hy])

/-- A view of the whole tree from the node at `p`. -/
structure View (h : Heap Node) (p : Option Node) (t : RbTree Node) (fs : List (Frame Node)) : Prop where
  tree : Owns h p t
  path : OwnsPath h p fs
  nodup : (t.inorder ++ pathNodes fs).Nodup

theorem View.of_root (ho : Owns h p t) (hnodup : t.inorder.Nodup) : View h p t [] :=
  ⟨ho, trivial, by simpa using hnodup⟩

theorem View.down (hv : View h p (join s c a x b) fs) : View h ((h x).children s) a (⟨s, x, c, b⟩ :: fs) := by
  obtain ⟨hp, hc, ha, hb⟩ := owns_join.mp hv.tree
  refine ⟨ha, ⟨hc, rfl, hb, hp ▸ hv.path⟩, ?_⟩
  refine ((perm_join.append_right _).nodup_iff.mp hv.nodup).perm ?_
  simp only [cons_append, pathNodes_cons, append_assoc]
  exact perm_middle.symm

theorem View.up (hv : View h p t (f :: fs)) : View h (some f.x) (f.fill t) fs := by
  obtain ⟨hc, hp, hother, hrest⟩ := hv.path
  refine ⟨owns_join.mpr ⟨rfl, hc, hp ▸ hv.tree, hother⟩, hrest, ?_⟩
  refine (perm_join.append_right _).nodup_iff.mpr (hv.nodup.perm ?_)
  simp only [cons_append, pathNodes_cons, append_assoc]
  exact perm_middle

theorem View.root (hv : View h (some n) t fs) : Owns h (n :: stackOf fs).getLast? (plug t fs) := by
  induction fs generalizing n t with
  | nil => exact hv.tree
  | cons f fs ih =>
    have := ih hv.up
    rwa [stackOf, map_cons, List.getLast?_cons_cons]

variable [ord : LinearOrder Node]

theorem View.set_color (hv : View h (some x) (join s c a x b) fs) (c' : Color) :
    View (setColor h x c') (some x) (join s c' a x b) fs := by
  obtain ⟨_, _, ha, hb⟩ := owns_join.mp hv.tree
  have hnd := (perm_join.append_right _).nodup_iff.mp hv.nodup
  simp only [cons_append, nodup_cons, mem_append, not_or] at hnd
  obtain ⟨⟨⟨hxa, hxb⟩, hxp⟩, _⟩ := hnd
  have hsame : ∀ y, y ≠ x → setColor h x c' y = h y := fun y hy => update_of_ne hy _ _
  have hx : setColor h x c' x = { h x with color := c' } := update_self ..
  refine ⟨owns_join.mpr ⟨rfl, by rw [hx], ?_, ?_⟩, hv.path.congr fun y hy => hsame y (by rintro rfl; exact hxp hy), ?_⟩
  · rw [hx]
    exact ha.congr fun y hy => hsame y (by rintro rfl; exact hxa hy)
  · rw [hx]
    exact hb.congr fun y hy => hsame y (by rintro rfl; exact hxb hy)
  · exact (perm_join.append_right _).nodup_iff.mpr ((perm_join.append_right _).nodup_iff.mp hv.nodup)

theorem View.get_side (hv : View h (some n) t (f :: fs)) : getSide h f.x n = f.side := by
  obtain ⟨_, hp, hother, _⟩ := hv.path
  have hn := hv.tree.mem
  obtain ⟨s, x, c, o⟩ := f
  cases s with
  | true => simp [getSide, getChild, hp]
  | false =>
    refine decide_eq_false fun heq => ?_
    have hother : Owns h (getChild h x true) o := hother
    rw [heq] at hother
    have hmem : n ∈ o.inorder := hother.mem
    exact (nodup_append.mp hv.nodup).2.2 n hn n (by simp [hmem]) rfl

@[simp] theorem setChild_self (h : Heap Node) (x : Node) (s : Bool) (q : Option Node) :
    setChild h x s q x = ⟨update (h x).children s q, (h x).color⟩ := update_self ..

theorem setChild_ne (h : Heap Node) (s : Bool) (q : Option Node) (hne : y ≠ x) : setChild h x s q y = h y :=
  update_of_ne hne _ _

/-- The parent is set to point to another node. -/
def relink (h : Heap Node) (fs : List (Frame Node)) (q : Option Node) : Heap Node :=
  match fs with
  | [] => h
  | f :: _ => setChild h f.x f.side q

theorem relink_other (hy : y ∉ pathNodes fs) : relink h fs q y = h y := by
  cases fs with
  | nil => rfl
  | cons f fs => exact setChild_ne h _ _ (by rintro rfl; simp at hy)

theorem OwnsPath.relink (ho : OwnsPath h p fs) (hnodup : (pathNodes fs).Nodup) : OwnsPath (relink h fs q) q fs := by
  cases fs with
  | nil => trivial
  | cons f fs =>
    obtain ⟨hc, _, hother, hrest⟩ := ho
    simp only [pathNodes_cons, nodup_cons, mem_append, not_or] at hnodup
    obtain ⟨⟨hxo, hxp⟩, _⟩ := hnodup
    have hne : f.side ≠ !f.side := by simp
    refine ⟨by simpa [Rb.relink] using hc, by simp [Rb.relink], ?_, ?_⟩
    · simp only [Rb.relink, setChild_self, update_of_ne hne.symm]
      exact hother.congr fun y hy => setChild_ne h _ _ (by rintro rfl; exact hxo hy)
    · exact hrest.congr fun y hy => setChild_ne h _ _ (by rintro rfl; exact hxp hy)

theorem View.set_child (hv : View h p t fs) (hq : Owns h q t') (hnodup : (t'.inorder ++ pathNodes fs).Nodup) :
    View (relink h fs q) q t' fs := by
  obtain ⟨_, hfs, hdisj⟩ := nodup_append.mp hnodup
  refine ⟨hq.congr fun y hy => relink_other fun hmem => hdisj y hy y hmem rfl, hv.path.relink hfs, hnodup⟩

/-! ## Rotation -/

theorem View.rotate
    (hv : View h (some n) (join s c a n b) (⟨s, m, d, o⟩ :: fs)) :
    View (rotateHeap h n m (stackOf fs)) (some n) (join s c a n (join s d b m o)) fs := by
  have hside := hv.get_side
  obtain ⟨_, hc, ha, hb⟩ := owns_join.mp hv.tree
  obtain ⟨hd, hp, ho, hpath⟩ := hv.path
  have hlink : rotateHeap h n m (stackOf fs) = setChild (setChild (setChild (relink h fs (some n)) n s ((h n).children s))
      n (!s) (some m)) m s ((h n).children (!s)) := by
    cases fs with
    | nil => simp only [rotateHeap, stackOf, map_nil, hside, relink, getChild]
    | cons g fs =>
      have hgside := hv.up.get_side
      simp only [rotateHeap, stackOf, map_cons, hside, relink, getChild, hgside]
  have hperm : ((join s c a n b).inorder ++ pathNodes (⟨s, m, d, o⟩ :: fs)).Perm
      ((join s c a n (join s d b m o)).inorder ++ pathNodes fs) := by
    refine (perm_plug _ _).symm.trans (.trans ?_ (perm_plug _ _))
    rw [plug_cons, inorder_plug_congr fs]
    cases s <;> simp [Frame.fill, inorder_join]
  have hnd := (perm_join.append_right _).nodup_iff.mp hv.nodup
  simp only [cons_append, append_assoc, pathNodes_cons, nodup_cons, nodup_append, mem_append,
    mem_cons, not_or] at hnd
  obtain ⟨⟨hna, hnb, hnm, hno, hnp⟩, _, ⟨_, ⟨⟨hmo, hmp⟩, _, hfs, hop⟩, hbrest⟩, harest⟩ := hnd
  have hother : ∀ y, y ≠ n → y ≠ m → y ∉ pathNodes fs → rotateHeap h n m (stackOf fs) y = h y := by
    intro y hyn hym hyp
    rw [hlink, setChild_ne _ _ _ hym, setChild_ne _ _ _ hyn, setChild_ne _ _ _ hyn, relink_other hyp]
  have hs : s ≠ !s := by simp
  have hn : rotateHeap h n m (stackOf fs) n =
      ⟨update (update (h n).children s ((h n).children s)) (!s) (some m), c⟩ := by
    rw [hlink, setChild_ne _ _ _ hnm, setChild_self, setChild_self, relink_other hnp, hc]
  have hm : rotateHeap h n m (stackOf fs) m = ⟨update (h m).children s ((h n).children (!s)), d⟩ := by
    rw [hlink, setChild_self, setChild_ne _ _ _ (Ne.symm hnm), setChild_ne _ _ _ (Ne.symm hnm), relink_other hmp, hd]
  refine ⟨owns_join.mpr ⟨rfl, by rw [hn], ?_, owns_join.mpr ⟨?_, by rw [hm], ?_, ?_⟩⟩, ?_, hperm.nodup_iff.mp hv.nodup⟩
  · rw [hn]
    simp only [update_eq_self, update_of_ne hs]
    refine ha.congr fun y hy => hother y (by rintro rfl; exact hna hy) ?_ fun hyp => ?_
    · exact harest y hy m (.inr (.inl rfl))
    · exact harest y hy y (.inr (.inr (.inr hyp))) rfl
  · rw [hn]
    exact update_self ..
  · rw [hm]
    simp only [update_self]
    refine hb.congr fun y hy => hother y (by rintro rfl; exact hnb hy) ?_ fun hyp => ?_
    · exact hbrest y hy m (.inl rfl)
    · exact hbrest y hy y (.inr (.inr hyp)) rfl
  · rw [hm]
    simp only [update_of_ne hs.symm]
    refine ho.congr fun y hy => hother y (by rintro rfl; exact hno hy) (by rintro rfl; exact hmo hy) fun hyp => ?_
    exact hop y hy y hyp rfl
  · refine (hpath.relink (q := some n) hfs).congr fun y hy => ?_
    have hyn : y ≠ n := by rintro rfl; exact hnp hy
    have hym : y ≠ m := by rintro rfl; exact hmp hy
    rw [hlink, setChild_ne _ _ _ hym, setChild_ne _ _ _ hyn, setChild_ne _ _ _ hyn]

omit ord in
theorem View.down_join {y : Node}
    (hv : View h p (join s c (join s' c' a' y b') x b) fs) : View h (some y) (join s' c' a' y b') (⟨s, x, c, b⟩ :: fs) := by
  have hdown := hv.down
  rw [(owns_join.mp hdown.tree).1] at hdown
  exact hdown

theorem View.set_near {y : Node} (d : Color) (hv : View h (some x) (join s c (join s' c' a' y b') x b) fs) :
    View (setColor h y d) (some x) (join s c (join s' d a' y b') x b) fs :=
  (hv.down_join.set_color d).up

theorem View.set_far {y : Node} (d : Color) (hv : View h (some x) (join s c a x (join s' c' a' y b')) fs) :
    View (setColor h y d) (some x) (join s c a x (join s' d a' y b')) fs := by
  rw [← RbTree.join_not] at hv ⊢
  exact hv.set_near d

/-! ## `fix_extra_red` -/

theorem rotateLower_spec (top : Node) (hv : View h (some n) (join s c a n b) (⟨s, m, d, o⟩ :: fs)) :
    ∃ h', rotateLower h top (n :: m :: stackOf fs) = .ok (h', top :: m :: n :: stackOf fs) ∧
      View h' (some n) (join s .black a n (join s .red b m o)) fs :=
  ⟨_, rfl, (hv.rotate.set_color .black).set_far .red⟩

theorem View.recolored {g : Frame Node} (hv : View h (some n) t (f :: g :: fs))
    (haunt : getChild h g.x (!g.side) = some z) :
    View (setColor (setColor (setColor h g.x .red) f.x .black) z .black) (some g.x) (recolor f g t) fs := by
  obtain ⟨_, _, hother, _⟩ := hv.up.path
  rw [show (h g.x).children (!g.side) = some z from haunt] at hother
  obtain ⟨c', a', b', ho⟩ := hother.exists_join false
  have hview := hv.up.up
  simp only [Frame.fill, ho] at hview
  have hset := ((hview.set_color .red).set_near .black).set_far .black
  simpa [recolor, ho] using hset

theorem fixExtraRed_spec (hv : View h (some n) t fs) (hfits : Fits false k fs N) :
    ∃ r, fixExtraRed h (n :: stackOf fs) = .ok r ∧ Owns r.1 r.2.getLast? (fixRed t fs) := by
  induction fs using List.twoStepInduction generalizing h n t k with
  | nil =>
    obtain ⟨c, a, b, rfl⟩ := hv.tree.exists_join false
    refine ⟨_, rfl, ?_⟩
    simpa [fixRed] using (hv.set_color .black).tree
  | singleton f =>
    have hc : f.c = .black := by
      obtain ⟨side, x, c, o⟩ := f
      cases c with
      | black => rfl
      | red => cases hfits.2.2.2.1
    have hblack : isBlack h f.x = true := by simp [isBlack, getColor, hv.path.1, hc]
    refine ⟨(h, n :: stackOf [f]), by simp [stackOf, fixExtraRed, hblack], ?_⟩
    exact hv.root
  | cons_cons f g fs ih _ =>
    by_cases hc : f.c = .black
    · have hblack : isBlack h f.x = true := by simp [isBlack, getColor, hv.path.1, hc]
      refine ⟨(h, n :: stackOf (f :: g :: fs)), by simp [stackOf, fixExtraRed, hblack], ?_⟩
      rw [fixRed, if_pos hc]
      exact hv.root
    · have hblack : isBlack h f.x = false := by simp [isBlack, getColor, hv.path.1, hc]
      have hside := hv.up.get_side
      obtain ⟨_, _, hother, _⟩ := hv.up.path
      have hfilter : (getChild h g.x (!g.side)).filter (isRed h) = if g.other.isRed then getChild h g.x (!g.side) else none :=
        hother.filter_isRed
      rw [fixRed, if_neg hc]
      cases haunt : g.other.isRed with
      | true =>
        obtain ⟨z, hz⟩ : ∃ z, getChild h g.x (!g.side) = some z := by
          cases hp : getChild h g.x (!g.side) with
          | some z => exact ⟨z, rfl⟩
          | none =>
            rw [show (h g.x).children (!g.side) = none from hp] at hother
            rw [hother.eq_none] at haunt
            cases haunt
        have hred : (getChild h g.x (!g.side)).filter (isRed h) = some z := by rw [hfilter, if_pos haunt, hz]
        obtain ⟨_, hfits⟩ := hfits.tail
        obtain ⟨_, hfits⟩ := hfits.tail
        obtain ⟨r, hr, howns⟩ := ih (hv.recolored hz) hfits
        refine ⟨r, ?_, by rw [if_pos rfl]; exact howns⟩
        simp only [stackOf, map_cons, fixExtraRed, hblack, Bool.false_eq_true, if_false, hside, hred]
        exact hr
      | false =>
        rw [haunt, if_neg Bool.false_ne_true] at hfilter
        have hparent := hv.get_side
        obtain ⟨side, x, cx, o⟩ := f
        obtain ⟨s, y, cy, q⟩ := g
        simp only [stackOf, map_cons, fixExtraRed, hblack, Bool.false_eq_true, if_false, hside, hfilter, hparent]
        by_cases heq : side = s
        · subst heq
          obtain ⟨h', hgo, hview⟩ := rotateLower_spec n hv.up
          rw [if_neg (not_not.mpr rfl)]
          refine ⟨_, hgo, ?_⟩
          have hroot := hview.root
          cases cx with
          | black => exact absurd rfl hc
          | red => simpa [raise, stackOf] using hroot
        · obtain rfl : side = !s := by cases side <;> cases s <;> simp_all
          obtain ⟨c, a, b, rfl⟩ := hv.tree.exists_join (!s)
          have hrot : View (rotateHeap h n x (stackOf (⟨s, y, cy, q⟩ :: fs))) (some n)
              (join s c (join s cx o x b) n a) (⟨s, y, cy, q⟩ :: fs) := by
            simpa only [RbTree.join_not] using hv.rotate
          obtain ⟨h', hgo, hview⟩ := rotateLower_spec x hrot
          rw [if_pos heq]
          refine ⟨_, hgo, ?_⟩
          have hroot := hview.root
          cases cx with
          | black => exact absurd rfl hc
          | red => simpa [raise, heq, RbTree.join_not, stackOf] using hroot

/-! ## `fix_missing_black` -/

/-- The node to be removed stands for an empty tree. -/
def StandsFor (nullNode n : Node) (t' t : RbTree Node) : Prop := if n = nullNode then t = .nil else t = t'

theorem StandsFor.depth_le (hz : StandsFor z n t' t) : t.depth ≤ t'.depth := by
  unfold StandsFor at hz
  split at hz
  · rw [hz]
    exact Nat.zero_le _
  · rw [hz]

theorem StandsFor.self (hne : n ≠ z) : StandsFor z n t t := by
  rw [StandsFor, if_neg hne]

theorem View.clear (hv : View h (some n) t' (f :: fs)) (hz : StandsFor z n t' t) :
    ∃ q, View (clearNull h z n f.x f.side) q t (f :: fs) := by
  unfold StandsFor at hz
  unfold clearNull
  by_cases hn : n = z
  · rw [if_pos hn] at hz ⊢
    subst hz
    exact ⟨none, hv.set_child rfl (nodup_append.mp hv.nodup).2.1⟩
  · rw [if_neg hn] at hz ⊢
    subst hz
    exact ⟨_, hv⟩

theorem outerRed_spec {w : Node} (hv : View h (some n) t' (⟨s, m, d, join s c a w b⟩ :: fs))
    (hz : StandsFor z n t' t) (hb : b.isRed = true) :
    ∃ h', outerRed h z n m w s (stackOf fs) = .ok (h', m :: w :: stackOf fs) ∧
      View h' (some w) (join s d (join s .black t m a) w b.blacken) fs := by
  obtain ⟨b1, v, b2, rfl⟩ := RbTree.exists_red s hb
  have hcolor : getColor h m = d := hv.path.1
  have hup := hv.up
  simp only [Frame.fill] at hup
  have hsib : View h (some w) (join s c a w (join s .red b1 v b2)) (⟨!s, m, d, t'⟩ :: fs) := by
    rw [← RbTree.join_not] at hup
    exact hup.down_join
  have hv' : getChild h w (!s) = some v := by
    obtain ⟨_, _, _, hb⟩ := owns_join.mp hsib.tree
    exact (owns_join.mp hb).1
  refine ⟨clearNull (rotateHeap (setColor (setColor (setColor h w d) m .black) v .black) w m (stackOf fs)) z n m s, ?_, ?_⟩
  · rw [outerRed, hv', hcolor]
    rfl
  have hset := (hup.set_far d).set_color .black
  rw [← RbTree.join_not] at hset
  have hset := hset.down_join.set_far .black
  rw [← RbTree.join_not] at hset
  have hrot := hset.rotate
  simp only [RbTree.join_not] at hrot
  obtain ⟨c0, a0, b0, ht'⟩ := hv.tree.exists_join s
  rw [ht'] at hrot
  have hdown := hrot.down_join.down_join
  rw [← ht'] at hdown
  obtain ⟨q, hq⟩ := hdown.clear hz
  simpa [Frame.fill] using hq.up.up

omit ord in
theorem push_ok {stack : List Node} (hlen : stack.length < cap) : push cap n stack = .ok (n :: stack) := if_pos hlen

theorem innerRed_spec {w : Node} {a1 a2 : RbTree Node}
    (hv : View h (some n) t' (⟨s, m, d, join s .black (join s .red a1 w a2) y b⟩ :: fs)) (hcap : fs.length + 2 < cap) :
    ∃ h', innerRed h cap m y s (stackOf fs) = .ok (h', w) ∧
      View h' (some n) t' (⟨s, m, d, join s .black a1 w (join s .red a2 y b)⟩ :: fs) := by
  have hup := hv.up
  simp only [Frame.fill] at hup
  rw [← RbTree.join_not] at hup
  have hw := hup.down_join.down_join
  have hinner : getChild h y s = some w := hw.path.2.1
  have hroom : (y :: m :: stackOf fs).length < cap := by simpa [stackOf] using hcap
  refine ⟨setColor (setColor (rotateHeap h w y (m :: stackOf fs)) y .red) w .black, ?_, ?_⟩
  · rw [innerRed, hinner]
    show (push cap w (y :: m :: stackOf fs)).bind _ = _
    rw [push_ok hroom]
    rfl
  · have hset := ((hw.rotate.set_far .red).set_color .black).up
    simp only [Frame.fill, RbTree.join_not] at hset
    obtain ⟨c0, a0, b0, ht'⟩ := hv.tree.exists_join s
    rw [ht'] at hset ⊢
    exact hset.down_join

omit ord in
theorem nullOrBlack_both (s : Bool) (ho : Owns h (some y) o) {e : Color} (heq : o = join s e a y b) :
    (nullOrBlack h (getChild h y false) && nullOrBlack h (getChild h y true)) = (!a.isRed && !b.isRed) := by
  subst heq
  obtain ⟨_, _, ha, hb⟩ := owns_join.mp ho
  have ha := ha.nullOrBlack
  have hb := hb.nullOrBlack
  cases s with
  | false => rw [← ha, ← hb]; rfl
  | true => rw [← ha, ← hb, Bool.and_comm]; rfl

theorem blackSibling_spec (hv : View h (some n) t' (⟨s, m, d, join s .black a y b⟩ :: fs))
    (hz : StandsFor z n t' t) (hcap : a.isRed = true → fs.length + 2 < cap) :
    ∃ h' stack, blackSibling h cap z n m y s (stackOf fs) =
        .ok (h', stack, (settle t ⟨s, m, d, join s .black a y b⟩).2) ∧
      if (settle t ⟨s, m, d, join s .black a y b⟩).2 then
        Owns h' stack.getLast? (plug (settle t ⟨s, m, d, join s .black a y b⟩).1 fs)
      else stack = m :: stackOf fs ∧ View h' (some m) (settle t ⟨s, m, d, join s .black a y b⟩).1 fs := by
  have hsib : (h m).children (!s) = some y := (owns_join.mp hv.path.2.2.1).1
  have hown : Owns h (some y) (join s .black a y b) := hsib ▸ hv.path.2.2.1
  have hboth := nullOrBlack_both s hown rfl
  by_cases hblack : a.isRed = false ∧ b.isRed = false
  · -- the sibling becomes red
    obtain ⟨har, hbr⟩ := hblack
    obtain ⟨q, hclear⟩ := hv.clear hz
    have hset := hclear.up.set_far .red
    have hcolor : isBlack (setColor (clearNull h z n m s) y .red) m = decide (d = .black) := by
      obtain ⟨_, hc, _⟩ := owns_join.mp hset.tree
      simp [isBlack, getColor, hc]
    cases d with
    | black =>
      refine ⟨setColor (clearNull h z n m s) y .red, m :: stackOf fs, ?_, ?_⟩
      · simp [blackSibling, hboth, har, hbr, hcolor, settle]
      · simpa [settle, har, hbr] using hset
    | red =>
      refine ⟨setColor (setColor (clearNull h z n m s) y .red) m .black, n :: m :: stackOf fs, ?_, ?_⟩
      · simp [blackSibling, hboth, har, hbr, hcolor, settle]
      · simpa [settle, har, hbr] using (hset.set_color .black).root
  · have hcond : (nullOrBlack h (getChild h y false) && nullOrBlack h (getChild h y true)) = false := by
      cases har : a.isRed <;> cases hbr : b.isRed <;> simp_all
    obtain ⟨_, _, ha, hb⟩ := owns_join.mp hown
    have hfilter : (getChild h y (!s)).filter (isRed h) = if b.isRed then getChild h y (!s) else none := hb.filter_isRed
    cases hbr : b.isRed with
    | true =>
      obtain ⟨h', hgo, hview⟩ := outerRed_spec hv hz hbr
      obtain ⟨q, hq⟩ : ∃ q, getChild h y (!s) = some q := by
        obtain ⟨b1, v, b2, rfl⟩ := RbTree.exists_red s hbr
        exact ⟨v, (owns_join.mp hb).1⟩
      rw [if_pos hbr, hq] at hfilter
      have hdone : settle t ⟨s, m, d, join s .black a y b⟩ = (join s d (join s .black t m a) y b.blacken, true) := by
        simp [settle, hbr]
      rw [hdone]
      refine ⟨h', m :: y :: stackOf fs, ?_, ?_⟩
      · rw [blackSibling, hcond, hq, hfilter]
        show (outerRed h z n m y s (stackOf fs)).bind _ = _
        rw [hgo]
        rfl
      · exact hview.root
    | false =>
      have har : a.isRed = true := by simpa [hbr] using hblack
      obtain ⟨a1, w, a2, rfl⟩ := RbTree.exists_red s har
      obtain ⟨h1, hinner, hview1⟩ := innerRed_spec hv (hcap har)
      obtain ⟨h', hgo, hview⟩ := outerRed_spec hview1 hz (by simp)
      rw [if_neg (by simp [hbr])] at hfilter
      have hdone : settle t ⟨s, m, d, join s .black (join s .red a1 w a2) y b⟩ =
          (join s d (join s .black t m a1) w (join s .black a2 y b), true) := by simp [settle, hbr]
      rw [hdone]
      refine ⟨h', m :: w :: stackOf fs, ?_, ?_⟩
      · rw [blackSibling, hcond, hfilter]
        show (innerRed h cap m y s (stackOf fs)).bind _ = _
        rw [hinner]
        show (outerRed h1 z n m w s (stackOf fs)).bind _ = _
        rw [hgo]
        rfl
      · simpa using hview.root

theorem redSibling_spec {u : Node}
    (hv : View h (some n) t' (⟨s, m, d, join s .red (join s c' a' u b') y b⟩ :: fs)) (hcap : fs.length + 2 < cap) :
    ∃ h', redSibling h cap n m y s (stackOf fs) = .ok (h', y :: stackOf fs, u) ∧
      View h' (some n) t' (⟨s, m, .red, join s c' a' u b'⟩ :: ⟨s, y, .black, b⟩ :: fs) := by
  have hup := hv.up
  simp only [Frame.fill] at hup
  rw [← RbTree.join_not] at hup
  have hy := hup.down_join
  rw [← RbTree.join_not] at hy
  have hset := hy.rotate
  simp only [RbTree.join_not] at hset
  have hset := (hset.set_near .red).set_color .black
  obtain ⟨c0, a0, b0, ht'⟩ := hv.tree.exists_join s
  rw [ht'] at hset ⊢
  have hdown := hset.down_join.down_join
  have hsib := (owns_join.mp hdown.path.2.2.1).1
  have hroom : (m :: y :: stackOf fs).length < cap := by simpa [stackOf] using hcap
  refine ⟨setColor (setColor (rotateHeap h y m (stackOf fs)) m .red) y .black, ?_, hdown⟩
  show (push cap n (m :: y :: stackOf fs)).bind _ = _
  rw [push_ok hroom]
  show (deref ((setColor (setColor (rotateHeap h y m (stackOf fs)) m .red) y .black m).children (!s))).bind _ = _
  rw [hsib]
  rfl

theorem level_view (hv : View h (some n) t' (f :: fs)) (hz : StandsFor z n t' t)
    (hcap : (plug t' (f :: fs)).depth < cap) (hfits : Fits false (k + 1) (f :: fs) N) (fuel : Nat) :
    ∃ h' stack, fixMissingBlack cap z (fuel + 1) h (n :: stackOf (f :: fs)) =
        (if (level t f).2 then .ok (h', stack) else fixMissingBlack cap z fuel h' stack) ∧
      if (level t f).2 then Owns h' stack.getLast? (plug (level t f).1 fs)
      else stack = f.x :: stackOf fs ∧ View h' (some f.x) (level t f).1 fs := by
  have hside := hv.get_side
  obtain ⟨s, m, d, o⟩ := f
  obtain ⟨ho, hrest⟩ := hfits
  obtain ⟨_, _, hother, _⟩ := hv.path
  have hne : o ≠ .nil := by
    rintro rfl
    cases ho
  obtain ⟨e, a, y, b, rfl⟩ := RbTree.exists_join s hne
  have hsib : getChild h m (!s) = some y := (owns_join.mp hother).1
  have hown : Owns h (some y) (join s e a y b) := hsib ▸ hother
  have hblack := hown.isBlack
  have hlen := length_add_depth_le (Frame.fill ⟨s, m, d, join s e a y b⟩ t') fs
  rw [plug_cons] at hcap
  simp only [Frame.fill, RbTree.depth_join] at hlen hcap
  cases e with
  | black =>
    have hroom : a.isRed = true → fs.length + 2 < cap := by
      intro har
      obtain ⟨a1, w, a2, rfl⟩ := RbTree.exists_red s har
      omega
    obtain ⟨h', stack, hgo, hres⟩ := blackSibling_spec hv hz hroom
    have hlevel : level t ⟨s, m, d, join s .black a y b⟩ = settle t ⟨s, m, d, join s .black a y b⟩ := by simp [level]
    rw [hlevel]
    refine ⟨h', stack, ?_, hres⟩
    have hyes : isBlack h y = true := by simp [hblack]
    simp only [stackOf, map_cons] at hgo ⊢
    simp only [fixMissingBlack, hside, hsib, deref, Bind.bind, Except.bind, hyes, if_true, hgo]
  | red =>
    obtain ⟨ha, _, har, _⟩ := balanced_red.mp ho
    have hane : a ≠ .nil := by
      rintro rfl
      cases ha
    obtain ⟨c', a', u, b', rfl⟩ := RbTree.exists_join s hane
    have hc' : c' = .black := by
      cases c' with
      | black => rfl
      | red => simp at har
    subst hc'
    simp only [RbTree.depth_join] at hlen
    obtain ⟨h1, hred, hview1⟩ := redSibling_spec hv (show fs.length + 2 < cap by omega)
    have hroom : a'.isRed = true → (⟨s, y, .black, b⟩ :: fs : List (Frame Node)).length + 2 < cap := by
      intro har
      obtain ⟨a1, w, a2, rfl⟩ := RbTree.exists_red s har
      simp only [length_cons]
      omega
    obtain ⟨h', stack, hgo, hres⟩ := blackSibling_spec hview1 hz hroom
    have hlevel : level t ⟨s, m, d, join s .red (join s .black a' u b') y b⟩ =
        (join s .black (settle t ⟨s, m, .red, join s .black a' u b'⟩).1 y b,
          (settle t ⟨s, m, .red, join s .black a' u b'⟩).2) := by simp [level]
    have hno : isBlack h y = false := by simp [hblack]
    have hdone : (settle t ⟨s, m, .red, join s .black a' u b'⟩).2 = true := settle_done rfl
    rw [hlevel]
    refine ⟨h', stack, ?_, by simpa [hdone, Frame.fill] using hres⟩
    simp only [stackOf, map_cons] at hred hgo ⊢
    simp only [fixMissingBlack, hside, hsib, deref, Bind.bind, Except.bind, hno, Bool.false_eq_true, if_false, hred, hgo]

/-- The loop restores the tree, and the last entry of the stack is its root. -/
theorem fixMissingBlack_spec (hv : View h (some n) t' fs) (hz : StandsFor z n t' t)
    (hnil : fs = [] → n ≠ z) (hpath : z ∉ pathNodes fs) (hcap : (plug t' fs).depth < cap) (ht : Balanced k t)
    (htr : t.isRed = false) (hfits : Fits false (k + 1) fs N) {fuel : Nat} (hfuel : fs.length < fuel) :
    ∃ r, fixMissingBlack cap z fuel h (n :: stackOf fs) = .ok r ∧ Owns r.1 r.2.getLast? (fixBlack t fs) := by
  induction fs generalizing h n t t' k fuel with
  | nil =>
    obtain ⟨fuel, rfl⟩ : ∃ m, fuel = m + 1 := ⟨fuel - 1, by simp at hfuel; omega⟩
    have heq : t = t' := by simpa [StandsFor, hnil rfl] using hz
    exact ⟨(h, [n]), rfl, heq ▸ hv.tree⟩
  | cons f fs ih =>
    obtain ⟨fuel, rfl⟩ : ∃ m, fuel = m + 1 := ⟨fuel - 1, by simp at hfuel; omega⟩
    obtain ⟨h', stack, hgo, hres⟩ := level_view hv hz hcap hfits fuel
    rw [hgo]
    cases hdone : (level t f).2 with
    | true =>
      exact ⟨(h', stack), by simp, by simpa [fixBlack, hdone] using hres⟩
    | false =>
      rw [hdone] at hres
      obtain ⟨rfl, hview⟩ := hres
      obtain ⟨hbal, hroot, hfit, hsame⟩ := (level_spec ht htr hfits).2 hdone
      simp only [pathNodes_cons, mem_cons, mem_append, not_or] at hpath
      have hne : f.x ≠ z := Ne.symm hpath.1
      have hdepth : (plug (level t f).1 fs).depth < cap := by
        refine lt_of_le_of_lt (depth_plug_mono fs ?_) hcap
        have := hz.depth_le
        simp only [hsame, Frame.fill, RbTree.depth_join]
        omega
      obtain ⟨r, hr, howns⟩ := ih hview (.self hne) (fun _ => hne) hpath.2.2 hdepth hbal hroot hfit (by simp at hfuel; omega)
      exact ⟨r, by simpa using hr, by simpa [fixBlack, hdone] using howns⟩

end RtosKernel.Zephyr.Rb
