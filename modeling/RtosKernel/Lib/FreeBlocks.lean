import RtosKernel.Lib.Tiling

/-! # The free blocks of a tiled memory as a linked list

The free blocks are linked in the order of their offsets: `next` leads from a
header through them to the end. A property of the free blocks, or of the used
ones, is stated of the offset and the size of each. -/
namespace RtosKernel.Lib.Tiling
open List

variable {next next' : Nat → Nat} {a f f' e h o : Nat} {l r pre post : List Block} {u : Bool}
  {P Q : Nat → Nat → Prop}

/-! ## Properties of blocks -/

/-- Every block of the kind `u` has the property `P`. -/
def Each (u : Bool) (P : Nat → Nat → Prop) : List Block → Nat → Prop
  | [], _ => True
  | b :: l, e => (b.used = u → P b.off (start l e - b.off)) ∧ Each u P l e

@[simp] theorem each_nil : Each u P [] e := trivial

@[simp] theorem each_cons {b : Block} :
    Each u P (b :: l) e ↔ (b.used = u → P b.off (start l e - b.off)) ∧ Each u P l e := Iff.rfl

theorem each_append : ∀ {l : List Block}, Each u P (l ++ r) e ↔ Each u P l (start r e) ∧ Each u P r e
  | [] => by simp
  | b :: l => by simp [each_append (l := l), start_append, and_assoc]

theorem Each.imp : ∀ {l : List Block}, Each u P l e →
    (∀ x n, (⟨x, u⟩ : Block) ∈ l → P x n → Q x n) → Each u Q l e
  | [], _, _ => trivial
  | ⟨x, used⟩ :: l, hp, hq => by
    refine ⟨fun hu => ?_, hp.2.imp fun y n hy => hq y n (List.mem_cons_of_mem _ hy)⟩
    obtain rfl : used = u := hu
    exact hq x _ (List.mem_cons_self ..) (hp.1 rfl)

theorem Each.at (hp : Each u P (pre ++ ⟨o, u⟩ :: post) e) : P o (start post e - o) :=
  (each_append.mp hp).2.1 rfl

theorem Each.both {x : Nat} (hp : Each u P l e) (hq : Each u Q l e) (hx : (⟨x, u⟩ : Block) ∈ l) :
    ∃ n, P x n ∧ Q x n := by
  obtain ⟨pre, post, rfl⟩ := append_of_mem hx
  exact ⟨_, hp.at, hq.at⟩

theorem Each.replace (hp : Each true P (pre ++ ⟨o, u⟩ :: post) e) (ho : ∀ n, P o n)
    (hr : Each true P r e) : Each true P (pre ++ ⟨o, true⟩ :: r) e := by
  obtain ⟨hpre, _, _⟩ := each_append.mp hp
  exact each_append.mpr ⟨hpre, fun _ => ho _, hr⟩

theorem Spaced.off_unique (hh : 0 < h) {x : Nat} {v : Bool} : ∀ {l : List Block}, Spaced h l e →
    (⟨x, u⟩ : Block) ∈ l → (⟨x, v⟩ : Block) ∈ l → u = v
  | b :: l, hs, hu, hv => by
    have hbehind : ∀ w, (⟨b.off, w⟩ : Block) ∉ l := fun w hm => by
      have h1 := hs.2.start_le_off hm
      have h2 := hs.1
      simp only at h1
      omega
    rcases List.mem_cons.mp hu with hu1 | hu1
    · rcases List.mem_cons.mp hv with hv1 | hv1
      · exact (Block.mk.inj (hu1.trans hv1.symm)).2
      · rw [← hu1] at hbehind
        exact absurd hv1 (hbehind v)
    · rcases List.mem_cons.mp hv with hv1 | hv1
      · rw [← hv1] at hbehind
        exact absurd hu1 (hbehind u)
      · exact hs.2.off_unique hh hu1 hv1

/-! ## The list -/

/-- From `a` on, the free blocks are linked, and the last one points to `f`. -/
def FreeList (next : Nat → Nat) : Nat → List Block → Nat → Prop
  | a, [], f => next a = f
  | a, ⟨o, used⟩ :: l, f => if used then FreeList next a l f else next a = o ∧ FreeList next o l f

/-- The last free block, `a` if there is none. -/
def lastFree : Nat → List Block → Nat
  | a, [] => a
  | a, ⟨o, used⟩ :: l => lastFree (if used then a else o) l

@[simp] theorem freeList_nil : FreeList next a [] f ↔ next a = f := Iff.rfl

@[simp] theorem freeList_used : FreeList next a (⟨o, true⟩ :: l) f ↔ FreeList next a l f := Iff.rfl

@[simp] theorem freeList_free : FreeList next a (⟨o, false⟩ :: l) f ↔ next a = o ∧ FreeList next o l f :=
  Iff.rfl

@[simp] theorem lastFree_nil : lastFree a [] = a := rfl

@[simp] theorem lastFree_used : lastFree a (⟨o, true⟩ :: l) = lastFree a l := rfl

@[simp] theorem lastFree_free : lastFree a (⟨o, false⟩ :: l) = lastFree o l := rfl

theorem lastFree_append : ∀ {l : List Block} {a : Nat}, lastFree a (l ++ r) = lastFree (lastFree a l) r
  | [], _ => rfl
  | ⟨_, _⟩ :: l, _ => lastFree_append (l := l)

theorem FreeList.next_eq : ∀ {l : List Block} {a : Nat}, FreeList next a l f → next a = firstFree l f
  | [], _, hl => hl
  | ⟨_, true⟩ :: l, _, hl => FreeList.next_eq (l := l) hl
  | ⟨_, false⟩ :: _, _, hl => hl.1

theorem freeList_append : ∀ {l : List Block} {a : Nat}, FreeList next a (l ++ r) f ↔
    FreeList next a l (firstFree r f) ∧ FreeList next (lastFree a l) r f
  | [], a => ⟨fun hr => ⟨hr.next_eq, hr⟩, fun hr => hr.2⟩
  | ⟨_, true⟩ :: l, _ => freeList_append (l := l)
  | ⟨o, false⟩ :: l, a => by
    simp only [cons_append, freeList_free, lastFree_free]
    rw [freeList_append (l := l), and_assoc]

theorem lastFree_mem : ∀ {l : List Block} {a : Nat},
    lastFree a l = a ∧ (∀ x, firstFree l x = x) ∨ (⟨lastFree a l, false⟩ : Block) ∈ l
  | [], _ => .inl ⟨rfl, fun _ => rfl⟩
  | ⟨o, true⟩ :: l, a => by
    rcases lastFree_mem (l := l) (a := a) with hl | hl
    · exact .inl hl
    · exact .inr (List.mem_cons_of_mem _ hl)
  | ⟨o, false⟩ :: l, a => by
    rcases lastFree_mem (l := l) (a := o) with ⟨hl, _⟩ | hl
    · refine .inr ?_
      rw [lastFree_free, hl]
      exact List.mem_cons_self ..
    · exact .inr (List.mem_cons_of_mem _ hl)

theorem FreeList.frame : ∀ {l : List Block} {a : Nat}, FreeList next a l f → next' a = next a →
    (∀ x, (⟨x, false⟩ : Block) ∈ l → next' x = next x) → FreeList next' a l f
  | [], _, hl, ha, _ => ha.trans hl
  | ⟨_, true⟩ :: l, _, hl, ha, hx =>
    FreeList.frame (l := l) hl ha fun x hm => hx x (List.mem_cons_of_mem _ hm)
  | ⟨o, false⟩ :: _, _, hl, ha, hx =>
    ⟨ha.trans hl.1, FreeList.frame hl.2 (hx o (List.mem_cons_self ..))
      fun x hm => hx x (List.mem_cons_of_mem _ hm)⟩

theorem FreeList.relink (hh : 0 < h) : ∀ {l : List Block} {a : Nat}, FreeList next a l f → Spaced h l e →
    (∀ x, (⟨x, false⟩ : Block) ∈ l → x ≠ a) →
    FreeList (Function.update next (lastFree a l) f') a l f'
  | [], a, _, _, _ => Function.update_self ..
  | ⟨_, true⟩ :: l, _, hl, hs, ha =>
    FreeList.relink hh (l := l) hl hs.2 fun x hm => ha x (List.mem_cons_of_mem _ hm)
  | ⟨o, false⟩ :: l, a, hl, hs, ha => by
    have hbehind : ∀ x, (⟨x, false⟩ : Block) ∈ l → o + h ≤ x := fun x hm =>
      hs.1.trans (hs.2.start_le_off hm)
    have hne : a ≠ lastFree o l := by
      rcases lastFree_mem (l := l) (a := o) with ⟨hl, _⟩ | hm
      · rw [hl]
        exact (ha o (List.mem_cons_self ..)).symm
      · exact (ha _ (List.mem_cons_of_mem _ hm)).symm
    refine ⟨?_, FreeList.relink hh hl.2 hs.2 fun x hm => ?_⟩
    · rw [lastFree_free, Function.update_of_ne hne]
      exact hl.1
    · have := hbehind x hm
      omega

theorem FreeList.rehead {b : Nat} : ∀ {l : List Block} {a : Nat}, FreeList next a l f →
    next' b = firstFree l f → (∀ x, (⟨x, false⟩ : Block) ∈ l → next' x = next x) → FreeList next' b l f
  | [], _, _, hb, _ => hb
  | ⟨_, true⟩ :: l, _, hl, hb, hx =>
    FreeList.rehead (l := l) hl hb fun x hm => hx x (List.mem_cons_of_mem _ hm)
  | ⟨o, false⟩ :: _, _, hl, hb, hx =>
    ⟨hb, FreeList.frame hl.2 (hx o (List.mem_cons_self ..)) fun x hm => hx x (List.mem_cons_of_mem _ hm)⟩

theorem FreeList.dropFree (hl : FreeList next a l f) : ∃ b, FreeList next b (dropFree l) f := by
  rcases l with _ | ⟨⟨n, _ | _⟩, l'⟩
  · exact ⟨a, hl⟩
  · exact ⟨n, hl.2⟩
  · exact ⟨a, hl⟩

theorem mem_dropFree {b : Block} (hb : b ∈ Tiling.dropFree l) : b ∈ l := by
  rcases l with _ | ⟨⟨n, _ | _⟩, l'⟩
  · exact hb
  · exact List.mem_cons_of_mem _ hb
  · exact hb

theorem Each.dropFree (hp : Each u P l e) : Each u P (Tiling.dropFree l) e := by
  rcases l with _ | ⟨⟨n, _ | _⟩, l'⟩
  · exact hp
  · exact hp.2
  · exact hp

/-! ## The bytes of the free blocks -/

/-- The sum of the sizes of the free blocks. -/
def freeBytes : List Block → Nat → Nat := sumBy fun used n => if used then 0 else n

@[simp] theorem freeBytes_nil : freeBytes [] e = 0 := rfl

@[simp] theorem freeBytes_used : freeBytes (⟨o, true⟩ :: l) e = freeBytes l e := Nat.zero_add _

@[simp] theorem freeBytes_free : freeBytes (⟨o, false⟩ :: l) e = start l e - o + freeBytes l e := rfl

theorem freeBytes_append : freeBytes (l ++ r) e = freeBytes l (start r e) + freeBytes r e :=
  sumBy_append _ r e l

theorem freeBytes_le (hs : Spaced h l e) : start l e + freeBytes l e ≤ e :=
  sumBy_le (fun u n => by cases u <;> simp) hs

theorem each_le_freeBytes : ∀ {l : List Block}, Each false (fun _ n => n ≤ freeBytes l e) l e
  | [] => trivial
  | ⟨o, used⟩ :: l => by
    refine ⟨fun hu => ?_, each_le_freeBytes.imp fun x n _ hn => ?_⟩
    · subst hu
      exact Nat.le_add_right _ _
    · exact le_trans hn (Nat.le_add_left _ _)

theorem freeBytes_plug (hs : Spaced h (pre ++ ⟨o, u⟩ :: post) e) :
    freeBytes (absorb pre o ++ dropFree post) e =
      freeBytes pre o + (start post e - o) + freeBytes post e := by
  obtain ⟨hpre, hroom, hpost⟩ := spaced_append.mp hs
  have hbehind : ∀ q, q ≤ o → start (dropFree post) e - q + freeBytes (dropFree post) e =
      o - q + (start post e - o) + freeBytes post e := by
    intro q hq
    rcases post with _ | ⟨⟨n, _ | _⟩, post'⟩
    · simp only [dropFree, start_nil, freeBytes_nil] at hroom ⊢
      omega
    · have := hpost.1
      simp only [dropFree_free, start_cons, freeBytes_free] at this hroom ⊢
      omega
    · simp only [dropFree, start_cons, freeBytes_used] at hroom ⊢
      omega
  rcases last_cases pre with rfl | ⟨r, p, rfl⟩ | ⟨r, p, rfl⟩
  · have := hbehind o (le_refl o)
    rw [absorb_nil, singleton_append, freeBytes_free, freeBytes_nil]
    omega
  · have hp := (spaced_append.mp hpre).2.1
    simp only [start_cons, start_nil] at hp
    have := hbehind p (by omega)
    rw [absorb_free, append_assoc, singleton_append, freeBytes_append, freeBytes_append,
      freeBytes_free, freeBytes_free, start_cons, start_cons, start_nil, freeBytes_nil]
    omega
  · have := hbehind o (le_refl o)
    rw [absorb_used, append_assoc, singleton_append, freeBytes_append, freeBytes_free, start_cons]
    change freeBytes (r ++ [⟨p, true⟩]) o + _ = _
    omega

theorem Spaced.plug (hs : Spaced h (pre ++ ⟨o, u⟩ :: post) e) : Spaced h (absorb pre o ++ dropFree post) e := by
  obtain ⟨hpre, hroom, hpost⟩ := spaced_append.mp hs
  have hdrop : Spaced h (dropFree post) e ∧ o + h ≤ start (dropFree post) e := by
    rcases post with _ | ⟨⟨n, _ | _⟩, post'⟩
    · exact ⟨trivial, hroom⟩
    · have := hpost.1
      simp only [start_cons] at hroom this
      exact ⟨hpost.2, by rw [dropFree_free]; omega⟩
    · exact ⟨hpost, hroom⟩
  rcases last_cases pre with rfl | ⟨r, p, rfl⟩ | ⟨r, p, rfl⟩
  · exact ⟨hdrop.2, hdrop.1⟩
  · obtain ⟨hr, hp, _⟩ := spaced_append.mp hpre
    simp only [start_cons, start_nil] at hp
    rw [absorb_free, append_assoc, singleton_append]
    have hroom' : p + h ≤ start (dropFree post) e := by omega
    exact spaced_append.mpr ⟨hr, hroom', hdrop.1⟩
  · rw [absorb_used, append_assoc, singleton_append]
    exact spaced_append.mpr ⟨hpre, hdrop.2, hdrop.1⟩

theorem Each.plug (hp : Each true P (pre ++ ⟨o, u⟩ :: post) e) :
    Each true P (absorb pre o ++ Tiling.dropFree post) e := by
  obtain ⟨hpre, _, hpost⟩ := each_append.mp hp
  have hdrop := hpost.dropFree
  rcases last_cases pre with rfl | ⟨r, p, rfl⟩ | ⟨r, p, rfl⟩
  · exact ⟨(fun hu => by cases hu), hdrop⟩
  · obtain ⟨hr, _⟩ := each_append.mp hpre
    rw [absorb_free, append_assoc, singleton_append]
    exact each_append.mpr ⟨hr, (fun hu => by cases hu), hdrop⟩
  · rw [absorb_used, append_assoc, singleton_append]
    exact each_append.mpr ⟨hpre, (fun hu => by cases hu), hdrop⟩

theorem start_plug : start (absorb pre o ++ dropFree post) e = start (pre ++ ⟨o, u⟩ :: post) e := by
  rcases last_cases pre with rfl | ⟨r, p, rfl⟩ | ⟨r, p, rfl⟩
  · rfl
  · simp [absorb_free, start_append]
  · simp [absorb_used, start_append]

theorem mem_of_plug {b : Block} (hb : b ∈ absorb pre o ++ dropFree post) : b ∈ pre ∨ b.off = o ∨ b ∈ post := by
  rcases mem_append.mp hb with hb | hb
  · rcases last_cases pre with rfl | ⟨r, p, rfl⟩ | ⟨r, p, rfl⟩
    · rw [absorb_nil, List.mem_singleton] at hb
      exact .inr (.inl (by rw [hb]))
    · rw [absorb_free] at hb
      exact .inl hb
    · rw [absorb_used, mem_append, List.mem_singleton] at hb
      exact hb.imp id fun he => .inl (by rw [he])
  · exact .inr (.inr (mem_dropFree hb))

/-! ## Offsets and sizes -/

/-- The offset and the size of each block. -/
def extents : List Block → Nat → List (Nat × Nat)
  | [], _ => []
  | b :: l, e => (b.off, start l e - b.off) :: extents l e

/-- The offset and the size of each free block. -/
def freeExtents : List Block → Nat → List (Nat × Nat)
  | [], _ => []
  | ⟨o, used⟩ :: l, e => if used then freeExtents l e else (o, start l e - o) :: freeExtents l e

theorem length_extents : ∀ {l : List Block}, (extents l e).length = l.length
  | [] => rfl
  | _ :: l => congrArg (· + 1) (length_extents (l := l))

/-- The blocks lie one behind the other, from `a` to `e`. -/
def Abut : Nat → List (Nat × Nat) → Nat → Prop
  | a, [], e => a = e
  | a, x :: l, e => x.1 = a ∧ 0 < x.2 ∧ Abut (a + x.2) l e

theorem Spaced.abut (hh : 0 < h) : ∀ {l : List Block}, Spaced h l e → Abut (start l e) (extents l e) e
  | [], _ => rfl
  | b :: l, hs => by
    have ih := hs.2.abut hh
    have hroom := hs.1
    have hnext : b.off + (start l e - b.off) = start l e := by omega
    refine ⟨rfl, ?_, ?_⟩
    · show 0 < start l e - b.off
      omega
    · show Abut (b.off + (start l e - b.off)) (extents l e) e
      rw [hnext]
      exact ih

theorem freeExtents_sublist : ∀ {l : List Block}, (freeExtents l e).Sublist (extents l e)
  | [] => List.Sublist.refl _
  | ⟨_, true⟩ :: l => List.Sublist.cons _ (freeExtents_sublist (l := l))
  | ⟨_, false⟩ :: l => List.Sublist.cons_cons _ (freeExtents_sublist (l := l))

theorem freeExtents_append : ∀ {l : List Block}, freeExtents (l ++ r) e = freeExtents l (start r e) ++ freeExtents r e
  | [] => rfl
  | ⟨_, true⟩ :: l => freeExtents_append (l := l)
  | ⟨o, false⟩ :: l => by
    show (o, start (l ++ r) e - o) :: freeExtents (l ++ r) e = _
    rw [freeExtents_append (l := l), start_append]
    rfl

theorem each_free_iff : ∀ {l : List Block}, Each false P l e ↔ ∀ x ∈ freeExtents l e, P x.1 x.2
  | [] => ⟨fun _ x hx => (not_mem_nil hx).elim, fun _ => trivial⟩
  | ⟨o, true⟩ :: l => ⟨fun h => each_free_iff (l := l).mp h.2, fun h => ⟨(fun hu => by cases hu), each_free_iff (l := l).mpr h⟩⟩
  | ⟨o, false⟩ :: l => by
    refine ⟨fun h x hx => ?_, fun h => ⟨fun _ => h (o, start l e - o) (List.mem_cons_self ..), ?_⟩⟩
    · rcases List.mem_cons.mp hx with rfl | hx
      · exact h.1 rfl
      · exact each_free_iff.mp h.2 x hx
    · exact each_free_iff.mpr fun x hx => h x (List.mem_cons_of_mem _ hx)

theorem freeBytes_eq : ∀ {l : List Block}, freeBytes l e = ((freeExtents l e).map Prod.snd).sum
  | [] => rfl
  | ⟨o, true⟩ :: l => by
    rw [freeBytes_used, freeBytes_eq (l := l)]
    rfl
  | ⟨o, false⟩ :: l => by
    rw [freeBytes_free, freeBytes_eq (l := l)]
    rfl

theorem mem_freeExtents {x : Nat × Nat} : ∀ {l : List Block}, x ∈ freeExtents l e →
    (⟨x.1, false⟩ : Block) ∈ l
  | ⟨o, true⟩ :: l, hx => List.mem_cons_of_mem _ (mem_freeExtents (l := l) hx)
  | ⟨o, false⟩ :: l, hx => by
    rcases List.mem_cons.mp hx with rfl | hx
    · exact List.mem_cons_self ..
    · exact List.mem_cons_of_mem _ (mem_freeExtents hx)

theorem mem_extents {x : Nat × Nat} : ∀ {l : List Block}, x ∈ extents l e →
    x ∈ freeExtents l e ∨ ∃ pre post, l = pre ++ ⟨x.1, true⟩ :: post ∧ x.2 = start post e - x.1
  | ⟨o, true⟩ :: l, hx => by
    rcases List.mem_cons.mp hx with rfl | hx
    · exact .inr ⟨[], l, rfl, rfl⟩
    · rcases mem_extents hx with hf | ⟨pre, post, rfl, hs⟩
      · exact .inl hf
      · exact .inr ⟨⟨o, true⟩ :: pre, post, rfl, hs⟩
  | ⟨o, false⟩ :: l, hx => by
    rcases List.mem_cons.mp hx with rfl | hx
    · exact .inl (List.mem_cons_self ..)
    · rcases mem_extents hx with hf | ⟨pre, post, rfl, hs⟩
      · exact .inl (List.mem_cons_of_mem _ hf)
      · exact .inr ⟨⟨o, false⟩ :: pre, post, rfl, hs⟩

theorem used_mem_extents (hh : 0 < h) (hs : Spaced h (pre ++ ⟨o, true⟩ :: post) e) :
    (o, start post e - o) ∈ extents (pre ++ ⟨o, true⟩ :: post) e ∧
      ∀ n, (o, n) ∉ freeExtents (pre ++ ⟨o, true⟩ :: post) e := by
  refine ⟨?_, fun n hm => ?_⟩
  · clear hs
    induction pre with
    | nil => exact List.mem_cons_self ..
    | cons b pre ih => exact List.mem_cons_of_mem _ ih
  · have := hs.off_unique hh (mem_freeExtents hm) (show (⟨o, true⟩ : Block) ∈ _ by simp)
    cases this

theorem Merged.apart (hh : 0 < h) : ∀ {l : List Block}, Merged l → Spaced h l e →
    (freeExtents l e).Pairwise fun x y => x.1 + x.2 < y.1
  | [], _, _ => List.Pairwise.nil
  | ⟨o, true⟩ :: l, hm, hs => Merged.apart (l := l) hh (List.IsChain.tail hm) hs.2
  | ⟨o, false⟩ :: l, hm, hs => by
    refine List.pairwise_cons.mpr ⟨fun y hy => ?_, Merged.apart hh (List.IsChain.tail hm) hs.2⟩
    have hroom := hs.1
    -- the block behind is used
    rcases l with _ | ⟨⟨n, _ | _⟩, l⟩
    · simp [freeExtents] at hy
    · have := (isChain_cons_cons.mp hm).1
      simp at this
    · have hs2 := hs.2
      have h1 := hs2.1
      have h2 := hs2.2.start_le_off (mem_freeExtents (l := l) hy)
      simp only [start_cons] at hroom h1 h2 ⊢
      omega

theorem Merged.single (hm : Merged l) (hfree : ∀ b ∈ l, b.used = false) : l.length ≤ 1 := by
  rcases l with _ | ⟨a, _ | ⟨b, l⟩⟩
  · simp
  · simp
  · have h1 := (isChain_cons_cons.mp hm).1
    have h2 := hfree a (by simp)
    have h3 := hfree b (by simp)
    rcases h1 with h1 | h1
    · rw [h1] at h2
      cases h2
    · rw [h1] at h3
      cases h3

/-- The callers hold the pointers `live`, one for each used block. -/
def Live (ptr : Nat → Nat) (live : Finset Nat) (l : List Block) : Prop :=
  ∀ p, p ∈ live ↔ ∃ x, (⟨x, true⟩ : Block) ∈ l ∧ p = ptr x

section Live
variable {ptr : Nat → Nat} {live : Finset Nat} {l' : List Block}

theorem Live.insert (hl : Live ptr live l) (hmem : ∀ x, (⟨x, true⟩ : Block) ∈ l' ↔ x = o ∨ (⟨x, true⟩ : Block) ∈ l) :
    Live ptr (insert (ptr o) live) l' := by
  intro p
  rw [Finset.mem_insert, hl p]
  constructor
  · rintro (rfl | ⟨x, hx, rfl⟩)
    · exact ⟨o, (hmem o).mpr (.inl rfl), rfl⟩
    · exact ⟨x, (hmem x).mpr (.inr hx), rfl⟩
  · rintro ⟨x, hx, rfl⟩
    rcases (hmem x).mp hx with rfl | hx
    · exact .inl rfl
    · exact .inr ⟨x, hx, rfl⟩

theorem Live.erase (hinj : Function.Injective ptr) (hl : Live ptr live l)
    (hmem : ∀ x, (⟨x, true⟩ : Block) ∈ l' ↔ x ≠ o ∧ (⟨x, true⟩ : Block) ∈ l) : Live ptr (live.erase (ptr o)) l' := by
  intro p
  rw [Finset.mem_erase, hl p]
  constructor
  · rintro ⟨hne, x, hx, rfl⟩
    exact ⟨x, (hmem x).mpr ⟨fun e => hne (by rw [e]), hx⟩, rfl⟩
  · rintro ⟨x, hx, rfl⟩
    obtain ⟨hne, hx⟩ := (hmem x).mp hx
    exact ⟨fun e => hne (hinj e), x, hx, rfl⟩

/-- When the callers hold no pointer, merged blocks are one free block. -/
theorem Live.whole (hl : Live ptr live l) (hempty : live = ∅) (hm : Merged l) (hs : start l e = a) (hne : a ≠ e) :
    l = [⟨a, false⟩] := by
  have hfree (b : Block) (hb : b ∈ l) : b.used = false := Bool.eq_false_iff.mpr fun hu => by
    simpa [hempty] using (hl _).mpr ⟨b.off, hu ▸ hb, rfl⟩
  have hone := hm.single hfree
  rcases l with _ | ⟨⟨x, u⟩, _ | ⟨b, l⟩⟩
  · exact absurd hs.symm hne
  · obtain rfl : u = false := hfree ⟨x, u⟩ (by simp)
    exact hs ▸ rfl
  · simp at hone

end Live

end RtosKernel.Lib.Tiling
