import RtosKernel.Zephyr.RbShape

/-! # Insertion and removal

Each call finds its place, changes the tree there and repairs it: what the tree is afterwards follows from the
two repairs of the library. -/
namespace RtosKernel.Zephyr.Rb
open Lib.RedBlack
open Lib.RedBlack.RbTree (join)
open List (cons_append mem_append mem_cons mem_cons_self nodup_append nodup_cons)

variable {Node : Type} [ord : LinearOrder Node] {h h' : Heap Node} {s s' : State Node} {p q : Option Node}
  {t t' a b : RbTree Node} {fs gs : List (Frame Node)} {f : Frame Node} {n x y : Node}

/-- The tree in memory is an ordered red-black tree, and `max_depth` is large enough. -/
structure Inv (s : State Node) (t : RbTree Node) : Prop where
  owns : Owns s.heap s.root t
  sorted : t.inorder.Pairwise (· < ·)
  root : t.isRed = false
  balanced : ∃ n, Balanced n t ∧ 2 * n - 1 ≤ s.maxDepth
  depth : t.depth ≤ s.maxDepth

theorem sorted_nodup {l : List Node} (hl : l.Pairwise (· < ·)) : l.Nodup := hl.imp fun h => h.ne

theorem Inv.view (hi : Inv s t) : View s.heap s.root t [] := .of_root hi.owns (sorted_nodup hi.sorted)

/-! ## The way down -/

omit ord in
theorem View.congr (hv : View h p t fs) (hsame : ∀ y ∈ (plug t fs).inorder, h' y = h y) : View h' p t fs :=
  ⟨hv.tree.congr fun y hy => hsame y (mem_plug.mpr (.inl hy)),
    hv.path.congr fun y hy => hsame y (mem_plug.mpr (.inr hy)), hv.nodup⟩

omit ord in
theorem View.focus (hv : View h p (plug t gs) fs) : ∃ q, View h q t (gs ++ fs) := by
  induction gs generalizing t with
  | nil => exact ⟨p, hv⟩
  | cons g gs ih =>
    obtain ⟨q, hq⟩ := ih hv
    exact ⟨_, hq.down⟩

theorem leads_step {node top : Node} {c : Color} (hlead : Leads node fs) (hne : top ≠ node) :
    Leads node (⟨!decide (node < top), top, c, b⟩ :: fs) := by
  intro g hg
  rcases mem_cons.mp hg with rfl | hg
  · by_cases hlt : node < top
    · simp [hlt]
    · simpa [hlt] using lt_of_le_of_ne (not_lt.mp hlt) hne
  · exact hlead g hg

theorem findLoop_spec {top : Node} (node : Node) (room : Nat) (hv : View h (some top) t fs) (hlead : Leads node fs)
    (hroom : t.depth ≤ room + 1) :
    ∃ n t' gs, findLoop h node room top (stackOf fs) = .ok (n :: stackOf gs) ∧ View h (some n) t' gs ∧
      plug t' gs = plug t fs ∧ Leads node gs ∧
      (n = node ∨ (n ≠ node ∧ ∃ c b, t' = join (!decide (node < n)) c .nil n b)) := by
  induction room generalizing t fs top with
  | zero =>
    obtain ⟨c, a, b, rfl⟩ := hv.tree.exists_join (!decide (node < top))
    have hnil : a = .nil := by
      cases a with
      | nil => rfl
      | node =>
        simp only [RbTree.depth_join, RbTree.depth] at hroom
        omega
    subst hnil
    have hchild : getChild h top (!decide (node < top)) = none := hv.down.tree
    rw [findLoop, hchild]
    by_cases heq : top = node
    · rw [if_pos heq]
      exact ⟨top, _, fs, rfl, hv, rfl, hlead, .inl heq⟩
    · rw [if_neg heq]
      exact ⟨top, _, fs, rfl, hv, rfl, hlead, .inr ⟨heq, c, b, rfl⟩⟩
  | succ room ih =>
    obtain ⟨c, a, b, rfl⟩ := hv.tree.exists_join (!decide (node < top))
    rw [findLoop]
    by_cases heq : top = node
    · rw [if_pos heq]
      exact ⟨top, _, fs, rfl, hv, rfl, hlead, .inl heq⟩
    · rw [if_neg heq]
      have hdown := hv.down
      cases hchild : getChild h top (!decide (node < top)) with
      | none =>
        rw [show (h top).children (!decide (node < top)) = none from hchild] at hdown
        obtain rfl := hdown.tree.eq_none
        exact ⟨top, _, fs, rfl, hv, rfl, hlead, .inr ⟨heq, c, b, rfl⟩⟩
      | some ch =>
        rw [show (h top).children (!decide (node < top)) = some ch from hchild] at hdown
        rw [RbTree.depth_join] at hroom
        exact ih hdown (leads_step hlead heq) (by omega)

/-! ## `rb_insert` -/

variable {node node2 : Node}

theorem rbInsert_spec (hi : Inv s t) (hnew : node ∉ t.inorder) :
    ∃ s' t', rbInsert s node = .ok s' ∧ Inv s' t' ∧ ∀ y, y ∈ t'.inorder ↔ y = node ∨ y ∈ t.inorder := by
  set h := setChild (setChild s.heap node false none) node true none with hh
  have hsame : ∀ y, y ≠ node → h y = s.heap y := fun y hy => (setChild_ne _ _ _ hy).trans (setChild_ne _ _ _ hy)
  have hnode : ∀ side, (h node).children side = none := by
    intro side
    cases side <;> simp [hh]
  have hleaf : Owns h (some node) (join false (h node).color .nil node .nil) := ⟨rfl, rfl, hnode false, hnode true⟩
  have hview : View h s.root t [] := hi.view.congr fun y hy => hsame y (by rintro rfl; exact hnew hy)
  cases hroot : s.root with
  | none =>
    rw [hroot] at hview
    obtain rfl := hview.tree.eq_none
    refine ⟨⟨setColor h node .black, some node, 1⟩, join false .black .nil node .nil, by simp [rbInsert, hroot, hh], ?_, ?_⟩
    · have hset := (View.of_root hleaf (by simp [join, RbTree.inorder])).set_color .black
      exact ⟨hset.tree, List.pairwise_singleton _ _, rfl, ⟨1, balanced_black_succ.mpr ⟨rfl, rfl⟩, le_rfl⟩, le_rfl⟩
    · intro y
      simp
  | some root =>
    rw [hroot] at hview
    obtain ⟨n, t1, gs, hfind, hv, hplug, hlead, hend⟩ :=
      findLoop_spec node s.maxDepth hview (fun f hf => by cases hf) (hi.depth.trans (Nat.le_succ _))
    rw [plug_nil] at hplug
    have hmem : n ∈ t.inorder := hplug ▸ mem_plug.mpr (.inl hv.tree.mem)
    obtain ⟨hne, c, b, rfl⟩ : n ≠ node ∧ ∃ c b, t1 = join (!decide (node < n)) c .nil n b :=
      hend.resolve_left (by rintro rfl; exact hnew hmem)
    set fs : List (Frame Node) := ⟨!decide (node < n), n, c, b⟩ :: gs with hfs
    have hv := hv.down
    have hplug : plug .nil fs = t := hplug
    have hlead : Leads node fs := leads_step hlead hne
    have hsorted := hi.sorted
    rw [← hplug] at hsorted hnew
    have hless := hlead.before_lt hsorted
    have hmore := hlead.lt_after hsorted
    rw [inorder_plug] at hsorted
    -- the new leaf
    have hpath : node ∉ pathNodes fs := fun hy => hnew (mem_plug.mpr (.inr hy))
    have hnodup : ((join false (h node).color .nil node .nil).inorder ++ pathNodes fs).Nodup :=
      nodup_cons.mpr ⟨hpath, (nodup_append.mp hv.nodup).2.1⟩
    have hset := (hv.set_child hleaf hnodup).set_color .red
    obtain ⟨N, hbal, hmax⟩ := hi.balanced
    have hdepth := hi.depth
    have hroot' := hi.root
    rw [← hplug] at hbal hroot' hdepth
    obtain ⟨k, hk, hfits⟩ := Fits.of_plug hbal hroot'
    obtain rfl : k = 0 := hk
    obtain ⟨⟨h', stack⟩, hfix, howns⟩ := fixExtraRed_spec hset hfits
    have hleafb : Balanced 0 (join false .red .nil node .nil) := ⟨rfl, rfl, rfl, rfl⟩
    obtain ⟨hred, hle, hgrow⟩ := fixRed_spec hleafb rfl rfl hfits
    have hinorder : (fixRed (join false .red .nil node .nil) fs).inorder = before fs ++ [node] ++ after fs :=
      (fixRed_inorder (by simp [join])).trans (inorder_plug _ _)
    have hlen : fs.length ≤ s.maxDepth := by
      have := length_add_depth_le .nil fs
      omega
    have hgs : fs.length = gs.length + 1 := rfl
    set d := if gs.length + 2 > s.maxDepth then gs.length + 2 else s.maxDepth with hd
    have hdle : (plug (join false .red .nil node .nil) fs).depth ≤ d := by
      refine depth_plug_le (t := .nil) (hdepth.trans ?_) (.inr ?_)
      · rw [hd]
        split <;> omega
      · simp only [RbTree.depth_join, RbTree.depth]
        rw [hd]
        split <;> omega
    refine ⟨⟨h', stack.getLast?, d⟩, fixRed (join false .red .nil node .nil) fs, ?_, ⟨howns, ?_, hred, ?_, hle.trans hdle⟩, ?_⟩
    · have hroom : (n :: stackOf gs).length < s.maxDepth + 1 := by
        simp only [stackOf, List.length_cons, List.length_map]
        omega
      rw [rbInsert, hroot]
      show (findLoop h node s.maxDepth root (stackOf [])).bind _ = _
      rw [hfind]
      show (push (s.maxDepth + 1) node (n :: stackOf gs)).bind _ = _
      rw [push_ok hroom]
      show (fixExtraRed (setColor (relink h fs (some node)) node .red) (node :: stackOf fs)).bind _ = _
      rw [hfix]
      have hlength : (node :: stackOf fs).length = gs.length + 2 := by
        simp only [stackOf, List.length_cons, List.length_map, hgs]
      rw [hd, ← hlength]
      rfl
    · rw [hinorder]
      rw [List.append_assoc] at hsorted ⊢
      obtain ⟨hl, hr, hlr⟩ := List.pairwise_append.mp hsorted
      refine List.pairwise_append.mpr ⟨hl, List.pairwise_cons.mpr ⟨hmore, hr⟩, fun y hy z hz => ?_⟩
      rcases mem_cons.mp hz with rfl | hz
      · exact hless y hy
      · exact hlr y hy z hz
    · rcases hgrow with hbal' | ⟨hbal', hgrow⟩
      · exact ⟨N, hbal', by dsimp only; rw [hd]; split <;> omega⟩
      · exact ⟨N + 1, hbal', by dsimp only; omega⟩
    · intro y
      rw [hinorder, ← hplug, inorder_plug]
      simp [RbTree.inorder]
      tauto

/-! ## The node changes places -/

omit ord in
theorem rightLimb_spec {m : Node} (room : Nat) (ho : Owns h (some m) t) (hroom : t.depth ≤ room) (below : List Node) :
    ∃ node2 c l gs, rightLimb h room m below = .ok (node2 :: (stackOf gs ++ below)) ∧
      t = plug (join false c l node2 .nil) gs ∧ ∀ g ∈ gs, g.side = true := by
  induction room generalizing t m below with
  | zero =>
    obtain ⟨c, r, l, rfl⟩ := ho.exists_join true
    simp only [RbTree.depth_join] at hroom
    omega
  | succ room ih =>
    obtain ⟨c, r, l, rfl⟩ := ho.exists_join true
    obtain ⟨_, _, hr, _⟩ := owns_join.mp ho
    rw [rightLimb]
    cases hchild : getChild h m true with
    | none =>
      rw [show (h m).children true = none from hchild] at hr
      obtain rfl := hr.eq_none
      exact ⟨m, c, l, [], rfl, rfl, fun g hg => by cases hg⟩
    | some m' =>
      rw [show (h m).children true = some m' from hchild] at hr
      simp only [RbTree.depth_join] at hroom
      obtain ⟨node2, c2, l2, gs, hgo, hr, hright⟩ := ih hr (by omega) (m :: below)
      refine ⟨node2, c2, l2, gs ++ [⟨true, m, c, l⟩], ?_, ?_, ?_⟩
      · simpa [stackOf] using hgo
      · rw [plug_append, ← hr]
        rfl
      · intro g hg
        rcases mem_append.mp hg with hg | hg
        · exact hright g hg
        · rw [List.mem_singleton.mp hg]

/-- The pointer at the upper end of a way. -/
def topOf : Option Node → List (Frame Node) → Option Node
  | p, [] => p
  | _, g :: gs => topOf (some g.x) gs

omit ord in
theorem ownsPath_append : OwnsPath h p (gs ++ fs) ↔ OwnsPath h p gs ∧ OwnsPath h (topOf p gs) fs := by
  induction gs generalizing p with
  | nil => simp [OwnsPath, topOf]
  | cons g gs ih => simp only [cons_append, OwnsPath, ih, topOf, and_assoc]

omit ord in
theorem View.up_append (hv : View h p t (gs ++ fs)) : View h (topOf p gs) (plug t gs) fs := by
  induction gs generalizing p t with
  | nil => exact hv
  | cons g gs ih => exact ih hv.up

theorem exchange_node (hne : node ≠ node2) (low : Option Node) : exchange h node node2 low node =
    ⟨Function.update (Function.update (h node).children false ((h node2).children false)) true none, (h node2).color⟩ := by
  simp [exchange, setColor, setChild, getChild, getColor, hne, hne.symm]

theorem exchange_node2 (hne : node ≠ node2) (low : Option Node) : exchange h node node2 low node2 =
    ⟨Function.update (Function.update (h node2).children false low) true ((h node).children true), (h node).color⟩ := by
  simp [exchange, setColor, setChild, getChild, getColor, hne, hne.symm]

theorem exchange_other (low : Option Node) (h1 : y ≠ node) (h2 : y ≠ node2) : exchange h node node2 low y = h y := by
  simp [exchange, setColor, setChild, h1, h2]

theorem swapNodes_view {c c2 : Color} {l r : RbTree Node}
    (hv : View h (some node2) (join false c2 l node2 .nil) (gs ++ ⟨false, node, c, r⟩ :: fs))
    (hright : ∀ g ∈ gs, g.side = true) :
    View (swapNodes h node node2 ((stackOf gs).headD node) (stackOf fs).head?) (some node)
      (join false c2 l node .nil) (gs ++ ⟨false, node2, c, r⟩ :: fs) := by
  obtain ⟨hp2, hc2, hl, hr2⟩ := owns_join.mp hv.tree
  obtain ⟨hgs, hnode⟩ := ownsPath_append.mp hv.path
  obtain ⟨hc, hlow, hr, hfs⟩ := hnode
  have hnd := (perm_join.append_right _).nodup_iff.mp hv.nodup
  simp only [RbTree.inorder, List.append_nil, pathNodes_append, pathNodes_cons, cons_append, nodup_cons,
    nodup_append, mem_append, mem_cons, not_or] at hnd
  obtain ⟨⟨hn2l, hn2g, hn2n, hn2r, hn2f⟩, hlnd, ⟨hgnd, ⟨⟨hnr, hnf⟩, _, hfnd, hrf⟩, hgrest⟩, hlrest⟩ := hnd
  have hnl : node ∉ l.inorder := fun hy => hlrest node hy node (.inr (.inl rfl)) rfl
  have hng : node ∉ pathNodes gs := fun hy => hgrest node hy node (.inl rfl) rfl
  have hgf : ∀ y ∈ pathNodes gs, y ∉ pathNodes fs := fun y hy hyf => hgrest y hy y (.inr (.inr hyf)) rfl
  set base := relink (relink h fs (some node2)) gs (some node) with hbase
  have hbase_other : ∀ y, y ∉ pathNodes gs → y ∉ pathNodes fs → base y = h y := fun y hyg hyf =>
    (relink_other hyg).trans (relink_other hyf)
  have hexch : swapNodes h node node2 ((stackOf gs).headD node) (stackOf fs).head? =
      exchange base node node2 (topOf (some node) gs) := by
    have hup : (stackOf fs).head?.elim h (fun hiparent => setChild h hiparent (getSide h hiparent node) (some node2)) =
        relink h fs (some node2) := by
      cases fs with
      | nil => rfl
      | cons f fs =>
        have hside := hv.up_append.up.get_side
        show setChild h f.x (getSide h f.x node) (some node2) = setChild h f.x f.side (some node2)
        rw [hside]
    unfold swapNodes
    rw [hup]
    cases gs with
    | nil =>
      show (if node = node then _ else _) = _
      rw [if_pos rfl]
      rfl
    | cons g gs =>
      have hgx : g.x ∈ pathNodes (g :: gs) := by simp
      have hne : g.x ≠ node := by
        intro he
        exact hng (he ▸ hgx)
      have hside : getSide (relink h fs (some node2)) g.x node2 = g.side := by
        rw [hright g (mem_cons_self ..), getSide, getChild, relink_other (hgf _ hgx)]
        have := hgs.2.1
        rw [hright g (mem_cons_self ..)] at this
        simp [this]
      have hlow' : getChild base node false = topOf (some node) (g :: gs) := by
        rw [getChild, hbase_other node hng hnf]
        exact hlow
      have hhead : (stackOf (g :: gs)).headD node = g.x := rfl
      rw [hhead, if_neg hne, hside, ← hlow']
      rfl
  have hother : ∀ y, y ≠ node → y ≠ node2 → swapNodes h node node2 ((stackOf gs).headD node) (stackOf fs).head? y = base y := by
    intro y h1 h2
    rw [hexch, exchange_other _ h1 h2]
  have hN : swapNodes h node node2 ((stackOf gs).headD node) (stackOf fs).head? node =
      ⟨Function.update (Function.update (h node).children false ((h node2).children false)) true none, c2⟩ := by
    rw [hexch, exchange_node (Ne.symm hn2n), hbase_other node hng hnf, hbase_other node2 hn2g hn2f, hc2]
  have hN2 : swapNodes h node node2 ((stackOf gs).headD node) (stackOf fs).head? node2 =
      ⟨Function.update (Function.update (h node2).children false (topOf (some node) gs)) true ((h node).children true), c⟩ := by
    rw [hexch, exchange_node2 (Ne.symm hn2n), hbase_other node hng hnf, hbase_other node2 hn2g hn2f, hc]
  refine ⟨owns_join.mpr ⟨rfl, by rw [hN], ?_, ?_⟩, ownsPath_append.mpr ⟨?_, by rw [hN2], ?_, ?_, ?_⟩, ?_⟩
  · rw [hN]
    show Owns _ ((h node2).children false) l
    refine hl.congr fun y hy => ?_
    rw [hother y (by rintro rfl; exact hnl hy) (by rintro rfl; exact hn2l hy)]
    exact hbase_other y (fun hyg => hlrest y hy y (.inl hyg) rfl) fun hyf => hlrest y hy y (.inr (.inr (.inr hyf))) rfl
  · rw [hN]
    rfl
  · have hlinked : OwnsPath (relink h fs (some node2)) (some node2) gs := hgs.congr fun y hy => relink_other (hgf y hy)
    refine (hlinked.relink (q := some node) hgnd).congr fun y hy => ?_
    exact hother y (by rintro rfl; exact hng hy) (by rintro rfl; exact hn2g hy)
  · rw [hN2]
    rfl
  · rw [hN2]
    show Owns _ ((h node).children true) r
    refine Owns.congr hr fun y hy => ?_
    rw [hother y (by rintro rfl; exact hnr hy) (by rintro rfl; exact hn2r hy)]
    exact hbase_other y (fun hyg => hgrest y hyg y (.inr (.inl hy)) rfl) fun hyf => hrf y hy y hyf rfl
  · refine (hfs.relink (q := some node2) hfnd).congr fun y hy => ?_
    rw [hother y (by rintro rfl; exact hnf hy) (by rintro rfl; exact hn2f hy)]
    exact relink_other fun hyg => hgf y hyg hy
  · have hperm : ∀ (u v w : List Node), (u ++ node2 :: (v ++ node :: w)).Perm (u ++ node :: (v ++ node2 :: w)) := by
      intro u v w
      refine List.Perm.append_left u ?_
      exact ((List.perm_middle.cons node2).trans (.swap _ _ _)).trans (List.perm_middle.symm.cons node)
    have hall := hv.nodup
    rw [pathNodes_append] at hall ⊢
    simp only [join, Bool.false_eq_true, if_false, RbTree.inorder, List.append_assoc, cons_append, List.nil_append,
      pathNodes_cons] at hall ⊢
    exact hall.perm (hperm _ _ _)

/-! ## `rb_remove` -/

/-- What a removal leaves: the tree without the node at the focus. -/
def Unlinked (s : State Node) (fs : List (Frame Node)) (a : RbTree Node) : Prop :=
  ∃ t, Owns s.heap s.root t ∧ t.inorder = before fs ++ a.inorder ++ after fs ∧ t.isRed = false ∧
    (∃ n, Balanced n t ∧ 2 * n - 1 ≤ s.maxDepth) ∧ t.depth ≤ s.maxDepth

omit ord in
theorem or_children {side : Bool} (hother : getChild h node (!side) = none) :
    (getChild h node false).or (getChild h node true) = getChild h node side := by
  cases side with
  | false => rw [show getChild h node true = none from hother, Option.or_none]
  | true => rw [show getChild h node false = none from hother, Option.none_or]

theorem unlink_spec {side : Bool} {c : Color} {maxDepth N : Nat}
    (hv : View h (some node) (join side c a node .nil) fs) (hbal : Balanced N (plug (join side c a node .nil) fs))
    (hroot : (plug (join side c a node .nil) fs).isRed = false) (hmax : 2 * N - 1 ≤ maxDepth)
    (hdepth : (plug (join side c a node .nil) fs).depth ≤ maxDepth) :
    ∃ s', unlink h maxDepth (node :: stackOf fs) = .ok s' ∧ Unlinked s' fs a := by
  obtain ⟨_, hc, ha, hnil⟩ := owns_join.mp hv.tree
  have hor : (getChild h node false).or (getChild h node true) = getChild h node side := or_children hnil
  obtain ⟨k, hk, hfits⟩ := Fits.of_plug hbal hroot
  -- the other child, if any, is a red leaf
  have hleaf : (a = .nil ∨ (c = .black ∧ ∃ x, a = join false .red .nil x .nil)) ∧ (c = .black → k = 1) := by
    cases c with
    | red =>
      obtain ⟨ha0, hk0, har, _⟩ := balanced_red.mp hk
      obtain rfl : k = 0 := hk0
      rcases ha0.of_zero with h0 | ⟨x, rfl⟩
      · exact ⟨.inl h0, fun h => by cases h⟩
      · simp at har
    | black =>
      obtain ⟨m, rfl, ha0, hm0⟩ := balanced_black.mp hk
      obtain rfl : m = 0 := hm0
      exact ⟨ha0.of_zero.imp_right fun h => ⟨rfl, h⟩, fun _ => rfl⟩
  obtain ⟨hleaf, hk1⟩ := hleaf
  have hnp : node ∉ pathNodes fs := fun hy => (nodup_append.mp hv.nodup).2.2 node (by simp) node hy rfl
  rcases hleaf with rfl | ⟨rfl, x, rfl⟩
  · -- no child
    have hchild : getChild h node side = none := ha
    rw [hchild] at hor
    have hempty : (plug (.nil : RbTree Node) fs).depth ≤ maxDepth := (depth_plug_mono fs (Nat.zero_le _)).trans hdepth
    have hinorder : (plug (.nil : RbTree Node) fs).inorder = before fs ++ (.nil : RbTree Node).inorder ++ after fs := inorder_plug _ _
    have hgone : View (relink h fs none) none .nil fs := hv.set_child rfl (nodup_append.mp hv.nodup).2.1
    cases fs with
    | nil =>
      refine ⟨⟨h, none, 0⟩, ?_, .nil, rfl, rfl, rfl, ⟨0, rfl, le_rfl⟩, le_rfl⟩
      simp [stackOf, unlink, hor]
    | cons f fs =>
      have hside := hv.get_side
      cases c with
      | red =>
        have hred : isBlack h node = false := by simp [isBlack, getColor, hc]
        rw [RbTree.isRed_join] at hfits
        have hk0 : k = 0 := (balanced_red.mp hk).2.1
        subst hk0
        obtain ⟨hbal', hroot'⟩ := Balanced.plug (t := .nil) (n := 0) rfl hfits.of_red
        refine ⟨⟨setChild h f.x f.side none, (f.x :: stackOf fs).getLast?, maxDepth⟩, ?_, plug .nil (f :: fs), hgone.up.root,
          hinorder, hroot', ⟨N, hbal', hmax⟩, hempty⟩
        simp [stackOf, unlink, hor, hred, hside]
      | black =>
        have hblack : isBlack h node = true := by simp [isBlack, getColor, hc]
        obtain rfl := hk1 rfl
        rw [RbTree.isRed_join] at hfits
        have hstand : StandsFor node node (join side .black .nil node .nil) .nil := by simp [StandsFor]
        obtain ⟨⟨h', stack⟩, hfix, howns⟩ := fixMissingBlack_spec hv hstand (fun h => by cases h) hnp
          (Nat.lt_succ_of_le hdepth) (k := 0) rfl rfl hfits (show (f :: fs).length < fs.length + 2 by simp)
        obtain ⟨hroot', m, hm, hbal', hdepth'⟩ := fixBlack_spec (t := .nil) (n := 0) rfl rfl hfits
        refine ⟨⟨h', stack.getLast?, maxDepth⟩, ?_, fixBlack .nil (f :: fs), howns, ?_, hroot', ⟨m, hbal', ?_⟩, ?_⟩
        · simp only [stackOf, List.map_cons] at hfix ⊢
          simp [unlink, hor, hblack, hfix, Bind.bind, Except.bind]
        · rw [fixBlack_inorder]
          exact hinorder
        · dsimp only
          omega
        · dsimp only
          omega
  · -- a red leaf
    have hchild : getChild h node side = some x := ha.1
    rw [hchild] at hor
    obtain rfl := hk1 rfl
    have hsub := hv.down_join.tree
    have hnodup : ((join false .red .nil x .nil : RbTree Node).inorder ++ pathNodes fs).Nodup := by
      obtain ⟨_, hfs, hdisj⟩ := nodup_append.mp hv.nodup
      exact nodup_cons.mpr ⟨fun hy => hdisj x (by simp) x hy rfl, hfs⟩
    have hset := (hv.set_child hsub hnodup).set_color .black
    have hone : Balanced 1 (join false .black .nil x .nil : RbTree Node) := balanced_black_succ.mpr ⟨rfl, rfl⟩
    obtain ⟨hbal', hroot'⟩ := hone.plug (by simpa using hfits)
    have hinorder : (plug (join false .black .nil x .nil) fs).inorder =
        before fs ++ (join false .red .nil x .nil : RbTree Node).inorder ++ after fs := inorder_plug _ _
    have hdepth' : (plug (join false .black .nil x .nil) fs).depth ≤ maxDepth := by
      refine (depth_plug_mono fs ?_).trans hdepth
      simp only [RbTree.depth_join, RbTree.depth]
      omega
    cases fs with
    | nil =>
      refine ⟨⟨setColor h x .black, some x, maxDepth⟩, ?_, _, hset.tree, hinorder, hroot', ⟨N, hbal', hmax⟩, hdepth'⟩
      simp [stackOf, unlink, hor]
    | cons f fs =>
      have hside := hv.get_side
      have hnode : setChild h f.x f.side (some x) node = h node := relink_other hnp
      have hxred : isRed (setChild h f.x f.side (some x)) x = true := by
        have hcolor : isRed (setChild h f.x f.side (some x)) x = _ := (hv.set_child hsub hnodup).tree.isRed
        rw [hcolor]
        rfl
      have hnblack : isRed (setChild h f.x f.side (some x)) node = false := by simp [isRed, getColor, hnode, hc]
      refine ⟨⟨setColor (setChild h f.x f.side (some x)) x .black, (f.x :: stackOf fs).getLast?, maxDepth⟩, ?_, _,
        hset.up.root, hinorder, hroot', ⟨N, hbal', hmax⟩, hdepth'⟩
      simp [stackOf, unlink, hor, hside, hxred, hnblack]

theorem Unlinked.inv {l r : List Node} (hu : Unlinked s fs a) (hsorted : (l ++ node :: r).Pairwise (· < ·))
    (heq : before fs ++ a.inorder ++ after fs = l ++ r) :
    ∃ t', Inv s t' ∧ ∀ y, y ∈ t'.inorder ↔ y ∈ l ++ node :: r ∧ y ≠ node := by
  obtain ⟨t, howns, hinorder, hroot, hbal, hdepth⟩ := hu
  have hsub : (l ++ r).Sublist (l ++ node :: r) := (List.sublist_cons_self node r).append_left l
  rw [heq] at hinorder
  refine ⟨t, ⟨howns, hinorder ▸ hsorted.sublist hsub, hroot, hbal, hdepth⟩, fun y => ?_⟩
  obtain ⟨_, hr, hlr⟩ := List.pairwise_append.mp hsorted
  obtain ⟨hnr, _⟩ := List.pairwise_cons.mp hr
  rw [hinorder]
  constructor
  · intro hy
    refine ⟨hsub.subset hy, ?_⟩
    rintro rfl
    rcases mem_append.mp hy with hy | hy
    · exact lt_irrefl y (hlr y hy y (mem_cons_self ..))
    · exact lt_irrefl y (hnr y hy)
  · rintro ⟨hy, hne⟩
    rcases mem_append.mp hy with hy | hy
    · exact List.mem_append_left _ hy
    · exact List.mem_append_right _ ((mem_cons.mp hy).resolve_left hne)

omit ord in
theorem after_right (hright : ∀ g ∈ gs, g.side = true) : after gs = [] := by
  induction gs with
  | nil => rfl
  | cons g gs ih =>
    have hg : g.after = [] := by simp [Frame.after, hright g (mem_cons_self ..)]
    rw [after, hg, ih fun g hg => hright g (List.mem_cons_of_mem _ hg)]
    rfl

omit ord in
theorem Owns.exists_some (ho : Owns h p t) (hne : t ≠ .nil) : ∃ x, p = some x := by
  cases p with
  | some x => exact ⟨x, rfl⟩
  | none => exact absurd ho.eq_none hne

theorem unlink_found {c : Color} {l r : RbTree Node} (hi : Inv s t)
    (hv : View s.heap (some node) (join false c l node r) fs) (hplug : plug (join false c l node r) fs = t) :
    ∃ s', ((swapDown s.heap (s.maxDepth + 1) node (stackOf fs)).bind fun r => unlink r.1 s.maxDepth r.2) = .ok s' ∧
      ∃ gs a, Unlinked s' gs a ∧ ∃ u v, t.inorder = u ++ node :: v ∧ before gs ++ a.inorder ++ after gs = u ++ v := by
  obtain ⟨N, hbal, hmax⟩ := hi.balanced
  have hroot := hi.root
  have hdepth := hi.depth
  obtain ⟨_, _, hl, hr⟩ := owns_join.mp hv.tree
  by_cases hrn : r = .nil
  · -- no child on the right
    subst hrn
    have hchild : getChild s.heap node true = none := hr
    have hswap : swapDown s.heap (s.maxDepth + 1) node (stackOf fs) = .ok (s.heap, node :: stackOf fs) := by
      rw [swapDown, hchild]
      cases getChild s.heap node false <;> rfl
    subst hplug
    obtain ⟨s', hgo, hu⟩ := unlink_spec hv hbal hroot hmax hdepth
    refine ⟨s', by rw [hswap]; exact hgo, fs, l, hu, before fs ++ l.inorder, after fs, ?_, rfl⟩
    rw [inorder_plug]
    simp [join, RbTree.inorder]
  · by_cases hln : l = .nil
    · -- no child on the left
      subst hln
      have hchild : getChild s.heap node false = none := hl
      have hswap : swapDown s.heap (s.maxDepth + 1) node (stackOf fs) = .ok (s.heap, node :: stackOf fs) := by
        rw [swapDown, hchild]
      rw [← RbTree.join_not] at hv hplug
      subst hplug
      obtain ⟨s', hgo, hu⟩ := unlink_spec hv hbal hroot hmax hdepth
      refine ⟨s', by rw [hswap]; exact hgo, fs, r, hu, before fs, r.inorder ++ after fs, ?_, by simp⟩
      rw [inorder_plug]
      simp [join, RbTree.inorder]
    · -- two children
      obtain ⟨m, hm⟩ := hl.exists_some hln
      obtain ⟨m', hm'⟩ := hr.exists_some hrn
      rw [hm] at hl
      have hlen := length_add_depth_le (join false c l node r) fs
      rw [hplug, RbTree.depth_join] at hlen
      obtain ⟨node2, c2, l2, gs, hlimb, rfl, hright⟩ :=
        rightLimb_spec (s.maxDepth - fs.length) hl (by omega) []
      obtain ⟨q, hq⟩ := hv.down.focus
      obtain rfl : q = some node2 := (owns_join.mp hq.tree).1
      have hview := swapNodes_view hq hright
      have hshape : plug (join false c2 l2 node2 .nil) (gs ++ ⟨false, node, c, r⟩ :: fs) = t := by
        rw [plug_append]
        exact hplug
      rw [← hshape] at hbal hroot hdepth
      obtain ⟨k, hk, hfits⟩ := Fits.of_plug hbal hroot
      obtain ⟨hbal', hroot'⟩ := (balanced_relabel (y := node) hk).plug (by simpa using hfits.relabel (y := node2))
      have hdepth' : (plug (join false c2 l2 node .nil) (gs ++ ⟨false, node2, c, r⟩ :: fs)).depth ≤ s.maxDepth :=
        (depth_relabel (by simp)).trans hdepth
      obtain ⟨s', hgo, hu⟩ := unlink_spec hview hbal' hroot' hmax hdepth'
      refine ⟨s', ?_, _, l2, hu, before fs ++ before gs ++ l2.inorder ++ [node2], r.inorder ++ after fs, ?_, ?_⟩
      · have hswap : swapDown s.heap (s.maxDepth + 1) node (stackOf fs) =
            .ok (swapNodes s.heap node node2 ((stackOf gs).headD node) (stackOf fs).head?,
              node :: stackOf (gs ++ ⟨false, node2, c, r⟩ :: fs)) := by
          have hm : getChild s.heap node false = some m := hm
          have hm' : getChild s.heap node true = some m' := hm'
          have hroom : s.maxDepth + 1 - ((stackOf fs).length + 1) = s.maxDepth - fs.length := by simp [stackOf]
          simp only [swapDown, hm, hm', hroom, hlimb, List.append_nil]
          simp [stackOf, Bind.bind, Except.bind]
        rw [hswap]
        exact hgo
      · rw [← hshape, inorder_plug, before_append, after_append, after_right hright]
        simp [before, after, Frame.before, Frame.after, join, RbTree.inorder]
      · rw [before_append, after_append, after_right hright]
        simp [before, after, Frame.before, Frame.after]

theorem rbRemove_spec (hi : Inv s t) (hne : t ≠ .nil) :
    ∃ s' t', rbRemove s node = .ok s' ∧ Inv s' t' ∧ ∀ y, y ∈ t'.inorder ↔ y ∈ t.inorder ∧ y ≠ node := by
  have hview := hi.view
  obtain ⟨root, hroot⟩ : ∃ root, s.root = some root := by
    cases hroot : s.root with
    | some root => exact ⟨root, rfl⟩
    | none =>
      rw [hroot] at hview
      exact absurd hview.tree.eq_none hne
  rw [hroot] at hview
  obtain ⟨n, t1, fs, hfind, hv, hplug, hlead, hend⟩ :=
    findLoop_spec node s.maxDepth hview (fun f hf => by cases hf) (hi.depth.trans (Nat.le_succ _))
  have hstack : findAndStack s node = .ok (n :: stackOf fs) := by
    rw [findAndStack, hroot]
    exact hfind
  have hgo : rbRemove s node = if node ≠ n then .ok s
      else (swapDown s.heap (s.maxDepth + 1) node (stackOf fs)).bind fun r => unlink r.1 s.maxDepth r.2 := by
    rw [rbRemove, hstack]
    rfl
  have hsorted := hi.sorted
  rcases hend with rfl | ⟨hnn, c, b, rfl⟩
  · rw [if_neg (not_not.mpr rfl)] at hgo
    obtain ⟨c, l, r, rfl⟩ := hv.tree.exists_join false
    obtain ⟨s', hunlink, gs, a, hu, u, v, hinorder, heq⟩ := unlink_found hi hv hplug
    rw [hinorder] at hsorted ⊢
    obtain ⟨t', hinv, hmem⟩ := hu.inv hsorted heq
    exact ⟨s', t', hgo.trans hunlink, hinv, hmem⟩
  · rw [if_pos hnn.symm] at hgo
    refine ⟨s, t, hgo, hi, fun y => ⟨fun hy => ⟨hy, ?_⟩, And.left⟩⟩
    rintro rfl
    set f : Frame Node := ⟨!decide (y < n), n, c, b⟩ with hf
    have hplug : plug .nil (f :: fs) = t := hplug
    have hlead := leads_step (b := b) (c := c) hlead hnn
    rw [← hplug] at hsorted hy
    rw [inorder_plug] at hy
    rcases mem_append.mp hy with hy | hy
    · exact lt_irrefl y (hlead.before_lt hsorted y (by simpa [RbTree.inorder] using hy))
    · exact lt_irrefl y (hlead.lt_after hsorted y hy)

end RtosKernel.Zephyr.Rb
