import Mathlib

/-! # Blocks that tile a memory

A memory that is cut into blocks is the list of the blocks' offsets, in increasing order, and the offset where
the last one ends. Each block is used or free. -/
namespace RtosKernel.Lib.Tiling
open List

variable {h e o : Nat} {b : Block} {l pre post : List Block}

/-- A block: its offset, and whether it is used. -/
structure Block where
  off : Nat
  used : Bool
  deriving DecidableEq, Repr

/-- Where the blocks start, `e` if there are none. -/
def start : List Block → Nat → Nat
  | [], e => e
  | b :: _, _ => b.off

@[simp] theorem start_nil (e : Nat) : start [] e = e := rfl

@[simp] theorem start_cons (b : Block) (l : List Block) (e : Nat) : start (b :: l) e = b.off := rfl

theorem start_append (l r : List Block) (e : Nat) : start (l ++ r) e = start l (start r e) := by
  cases l with
  | nil => rfl
  | cons b l => rfl

/-- Each block has room for a header of `h` bytes. -/
def Spaced (h : Nat) : List Block → Nat → Prop
  | [], _ => True
  | b :: l, e => b.off + h ≤ start l e ∧ Spaced h l e

@[simp] theorem spaced_nil (h e : Nat) : Spaced h [] e := trivial

@[simp] theorem spaced_cons :
    Spaced h (b :: l) e ↔ b.off + h ≤ start l e ∧ Spaced h l e := Iff.rfl

theorem spaced_append {r : List Block} : ∀ {l : List Block},
    Spaced h (l ++ r) e ↔ Spaced h l (start r e) ∧ Spaced h r e
  | [] => by simp
  | b :: l => by simp [spaced_append (l := l), start_append, and_assoc]

theorem Spaced.start_le : ∀ {l : List Block}, Spaced h l e → start l e ≤ e
  | [], _ => le_refl e
  | b :: l, hs => by
    have := Spaced.start_le hs.2
    have := hs.1
    simp only [start_cons]
    omega

theorem Spaced.off_le : ∀ {l : List Block}, Spaced h l e → b ∈ l →
    b.off + h ≤ e
  | c :: l, hs, hb => by
    rcases mem_cons.mp hb with rfl | hb
    · exact le_trans hs.1 hs.2.start_le
    · exact hs.2.off_le hb

theorem Spaced.start_le_off : ∀ {l : List Block}, Spaced h l e → b ∈ l →
    start l e ≤ b.off
  | c :: l, hs, hb => by
    rcases mem_cons.mp hb with rfl | hb
    · exact le_refl _
    · have := hs.2.start_le_off hb
      have := hs.1
      simp only [start_cons]
      omega

theorem Spaced.off_ne (hh : 0 < h) {x : Block}
    (hs : Spaced h (pre ++ b :: post) e) (hx : x ∈ pre ∨ x ∈ post) : x.off ≠ b.off := by
  obtain ⟨hl, hr⟩ := spaced_append.mp hs
  rcases hx with hx | hx
  · have := hl.off_le hx
    simp only [start_cons] at this
    omega
  · have := hr.1
    have := hr.2.start_le_off hx
    omega

/-- What lies before and behind a block. -/
theorem Spaced.around {a : Nat} {u : Bool} (hh : 0 < h) (hs : Spaced h (pre ++ ⟨o, u⟩ :: post) e)
    (ha : a ≤ start (pre ++ ⟨o, u⟩ :: post) e) : Spaced h pre o ∧ Spaced h post e ∧ a ≤ o ∧ o + h ≤ start post e ∧
      start post e ≤ e ∧ (∀ b ∈ pre, a ≤ b.off ∧ b.off < o) ∧ ∀ b ∈ post, start post e ≤ b.off ∧ b.off < e := by
  obtain ⟨hpre, hroom, hpost⟩ := spaced_append.mp hs
  rw [start_append] at ha
  have hle := hpre.start_le
  simp only [start_cons] at hpre hroom hle ha
  refine ⟨hpre, hpost, by omega, hroom, hpost.start_le, fun b hb => ?_, fun b hb => ?_⟩
  · have := hpre.start_le_off hb
    have := hpre.off_le hb
    omega
  · have := hpost.off_le hb
    exact ⟨hpost.start_le_off hb, by omega⟩

theorem Spaced.increasing (hh : 0 < h) : ∀ {l : List Block}, Spaced h l e →
    (l.map Block.off ++ [e]).IsChain (· < ·)
  | [], _ => .singleton e
  | b :: l, hs => by
    have hroom := hs.1
    rw [map_cons, cons_append, isChain_cons]
    refine ⟨fun y hy => ?_, hs.2.increasing hh⟩
    have hy' : start l e = y := by
      cases l with
      | nil => simpa using hy
      | cons b' l => simpa using hy
    omega

theorem Spaced.length_le (hh : 0 < h) : ∀ {l : List Block}, Spaced h l e →
    start l e + l.length ≤ e
  | [], _ => le_refl e
  | b :: l, hs => by
    have := Spaced.length_le hh hs.2
    have := hs.1
    simp only [start_cons, length_cons]
    omega

theorem Spaced.take {used : Bool} (used' : Bool)
    (hs : Spaced h (pre ++ ⟨o, used⟩ :: post) e) : Spaced h (pre ++ ⟨o, used'⟩ :: post) e := by
  obtain ⟨hl, hr⟩ := spaced_append.mp hs
  exact spaced_append.mpr ⟨hl, hr⟩

theorem Spaced.mem_others (hh : 0 < h) (hs : Spaced h (pre ++ ⟨o, true⟩ :: post) e) {x : Nat} :
    ((⟨x, true⟩ : Block) ∈ pre ∨ (⟨x, true⟩ : Block) ∈ post) ↔
      x ≠ o ∧ (⟨x, true⟩ : Block) ∈ pre ++ ⟨o, true⟩ :: post := by
  constructor
  · intro hx
    refine ⟨hs.off_ne hh hx, ?_⟩
    rcases hx with hx | hx <;> simp [hx]
  · rintro ⟨hne, hx⟩
    simpa [hne] using hx

/-- A sum over the blocks of a weight of each block's state and size. -/
def sumBy (w : Bool → Nat → Nat) : List Block → Nat → Nat
  | [], _ => 0
  | b :: l, e => w b.used (start l e - b.off) + sumBy w l e

@[simp] theorem sumBy_nil (w : Bool → Nat → Nat) (e : Nat) : sumBy w [] e = 0 := rfl

@[simp] theorem sumBy_cons (w : Bool → Nat → Nat) (b : Block) (l : List Block) (e : Nat) :
    sumBy w (b :: l) e = w b.used (start l e - b.off) + sumBy w l e := rfl

theorem sumBy_append (w : Bool → Nat → Nat) (r : List Block) (e : Nat) : ∀ l : List Block,
    sumBy w (l ++ r) e = sumBy w l (start r e) + sumBy w r e
  | [] => by simp
  | b :: l => by simp [sumBy_append w r e l, start_append, Nat.add_assoc]

theorem sumBy_le {w : Bool → Nat → Nat} (hw : ∀ u n, w u n ≤ n) :
    ∀ {l : List Block}, Spaced h l e → start l e + sumBy w l e ≤ e
  | [], _ => le_refl e
  | b :: l, hs => by
    have ih := sumBy_le hw hs.2
    have hb := hw b.used (start l e - b.off)
    have := hs.1
    simp only [start_cons, sumBy_cons]
    omega

/-- No two neighbouring blocks are both free. -/
def Merged (l : List Block) : Prop := l.IsChain fun a b => a.used = true ∨ b.used = true

/-- The lowest free block, `e` if there is none. -/
def firstFree : List Block → Nat → Nat
  | [], e => e
  | b :: l, e => if b.used then firstFree l e else b.off

@[simp] theorem firstFree_nil (e : Nat) : firstFree [] e = e := rfl

@[simp] theorem firstFree_used (o : Nat) (l : List Block) (e : Nat) :
    firstFree (⟨o, true⟩ :: l) e = firstFree l e := rfl

@[simp] theorem firstFree_free (o : Nat) (l : List Block) (e : Nat) :
    firstFree (⟨o, false⟩ :: l) e = o := rfl

theorem firstFree_append (r : List Block) (e : Nat) : ∀ l : List Block,
    firstFree (l ++ r) e = firstFree l (firstFree r e)
  | [] => rfl
  | b :: l => by simp [firstFree, firstFree_append r e l]

/-- Either the blocks before a position are all used, and the search goes on
behind them, or the search ends before it. -/
theorem firstFree_cases (hh : 0 < h) : ∀ {l : List Block}, Spaced h l e →
    (∀ x, firstFree l x = x) ∨ ∃ o, o < e ∧ ∀ x, firstFree l x = o
  | [], _ => .inl fun _ => rfl
  | ⟨o, used⟩ :: l, hs => by
    cases used with
    | true =>
      simp only [firstFree_used]
      exact firstFree_cases hh hs.2
    | false =>
      have := hs.1
      have := hs.2.start_le
      exact .inr ⟨o, by simp only at *; omega, fun _ => rfl⟩

theorem firstFree_mem (e : Nat) : ∀ l : List Block,
    firstFree l e = e ∨ ⟨firstFree l e, false⟩ ∈ l
  | [] => .inl rfl
  | ⟨o, true⟩ :: l => by
    rcases firstFree_mem e l with h | h
    · exact .inl h
    · exact .inr (mem_cons_of_mem _ h)
  | ⟨o, false⟩ :: l => .inr (mem_cons_self ..)

theorem firstFree_split (e : Nat) : ∀ l : List Block, ∃ pre rest, l = pre ++ rest ∧
    firstFree l e = start rest e ∧ ∀ b ∈ pre, b.used = true
  | [] => ⟨[], [], rfl, rfl, by simp⟩
  | ⟨o, false⟩ :: l => ⟨[], ⟨o, false⟩ :: l, rfl, rfl, by simp⟩
  | ⟨o, true⟩ :: l => by
    obtain ⟨pre, rest, rfl, hfirst, hpre⟩ := firstFree_split e l
    refine ⟨⟨o, true⟩ :: pre, rest, rfl, hfirst, ?_⟩
    intro b hb
    rcases mem_cons.mp hb with rfl | hb
    · rfl
    · exact hpre b hb

theorem start_le_firstFree : ∀ {l : List Block}, Spaced h l e →
    start l e ≤ firstFree l e
  | [], _ => le_refl e
  | ⟨o, used⟩ :: l, hs => by
    cases used with
    | true =>
      have := start_le_firstFree hs.2
      have := hs.1
      simp only [start_cons, firstFree_used] at *
      omega
    | false => exact le_refl o

/-- The offset of the last block, `p` if there is none. -/
def last (p : Nat) (l : List Block) : Nat := (l.getLast?.map Block.off).getD p

@[simp] theorem last_nil (p : Nat) : last p [] = p := rfl

@[simp] theorem last_cons (p : Nat) (b : Block) (l : List Block) : last p (b :: l) = last b.off l := by
  cases l with
  | nil => rfl
  | cons c l => simp [last, List.getLast?_cons]

@[simp] theorem last_append_singleton (p : Nat) (b : Block) (l : List Block) :
    last p (l ++ [b]) = b.off := by simp [last]

theorem Merged.before (h : Merged (pre ++ b :: post)) :
    Merged pre := (isChain_append.mp h).1

theorem Merged.behind (h : Merged (pre ++ b :: post)) :
    Merged post := List.IsChain.tail (isChain_append.mp h).2.1

theorem Merged.use (hpre : Merged pre) (hpost : Merged post) : Merged (pre ++ ⟨o, true⟩ :: post) := by
  refine isChain_append.mpr ⟨hpre, isChain_cons.mpr ⟨fun y _ => .inl rfl, hpost⟩, ?_⟩
  intro x _ y hy
  cases hy
  exact .inr rfl

theorem Merged.cut {n : Nat} (h : Merged (pre ++ ⟨o, false⟩ :: post)) : Merged (⟨n, false⟩ :: post) := by
  have hpost := (isChain_append.mp h).2.1
  refine isChain_cons.mpr ⟨fun y hy => .inr ?_, List.IsChain.tail hpost⟩
  simpa using (isChain_cons.mp hpost).1 y hy

/-! ## Freeing a block and merging it with its neighbours -/

/-- The blocks without a free one at their front. -/
def dropFree : List Block → List Block
  | ⟨_, false⟩ :: l => l
  | l => l

@[simp] theorem dropFree_free (o : Nat) (l : List Block) : dropFree (⟨o, false⟩ :: l) = l := rfl

/-- A free block is added at the end, unless the last one is free and takes its
place. -/
def absorb (l : List Block) (o : Nat) : List Block :=
  match l.getLast? with
  | some ⟨_, false⟩ => l
  | _ => l ++ [⟨o, false⟩]

@[simp] theorem absorb_nil (o : Nat) : absorb [] o = [⟨o, false⟩] := rfl

@[simp] theorem absorb_free (l : List Block) (p o : Nat) :
    absorb (l ++ [⟨p, false⟩]) o = l ++ [⟨p, false⟩] := by simp [absorb]

@[simp] theorem absorb_used (l : List Block) (p o : Nat) :
    absorb (l ++ [⟨p, true⟩]) o = l ++ [⟨p, true⟩] ++ [⟨o, false⟩] := by simp [absorb]

theorem last_cases (l : List Block) : l = [] ∨ (∃ r p, l = r ++ [⟨p, false⟩]) ∨ ∃ r p, l = r ++ [⟨p, true⟩] := by
  rcases eq_nil_or_concat l with rfl | ⟨r, ⟨p, used⟩, rfl⟩
  · exact .inl rfl
  · cases used with
    | false => exact .inr (.inl ⟨r, p, concat_eq_append⟩)
    | true => exact .inr (.inr ⟨r, p, concat_eq_append⟩)

theorem Merged.dropFree (h : Merged l) : Merged (dropFree l) := by
  rcases l with _ | ⟨⟨o, _ | _⟩, l⟩
  · exact h
  · exact List.IsChain.tail h
  · exact h

theorem Merged.head_dropFree (h : Merged l) : ∀ b ∈ (Tiling.dropFree l).head?, b.used = true := by
  rcases l with _ | ⟨⟨o, _ | _⟩, l⟩
  · simp [Tiling.dropFree]
  · intro b hb
    have := (isChain_cons.mp h).1 b hb
    simpa using this
  · simp [Tiling.dropFree]

theorem Merged.dropFree_eq (h : Merged (pre ++ ⟨o, false⟩ :: post)) : Tiling.dropFree post = post := by
  have hpost := (isChain_append.mp h).2.1
  rcases post with _ | ⟨⟨n, _ | _⟩, l⟩
  · rfl
  · have hor := (isChain_cons.mp hpost).1 ⟨n, false⟩ rfl
    simp at hor
  · rfl

theorem Merged.absorb_eq (h : Merged (pre ++ ⟨o, false⟩ :: post)) : absorb pre o = pre ++ [⟨o, false⟩] := by
  rcases last_cases pre with rfl | ⟨r, p, rfl⟩ | ⟨r, p, rfl⟩
  · rfl
  · have hor := (isChain_append.mp h).2.2 ⟨p, false⟩ (by simp) ⟨o, false⟩ rfl
    simp at hor
  · rw [absorb_used]

theorem Merged.plug (hpre : Merged pre) (hpost : Merged post) : Merged (absorb pre o ++ Tiling.dropFree post) := by
  have hhead := hpost.head_dropFree
  rcases last_cases pre with rfl | ⟨r, p, rfl⟩ | ⟨r, p, rfl⟩
  · refine isChain_append.mpr ⟨.singleton _, hpost.dropFree, fun x hx y hy => ?_⟩
    exact .inr (hhead y hy)
  · rw [absorb_free]
    exact isChain_append.mpr ⟨hpre, hpost.dropFree, fun x _ y hy => .inr (hhead y hy)⟩
  · rw [absorb_used]
    refine isChain_append.mpr ⟨?_, hpost.dropFree, fun x _ y hy => .inr (hhead y hy)⟩
    refine isChain_append.mpr ⟨hpre, .singleton _, fun x hx y _ => .inl ?_⟩
    simp at hx
    rw [← hx]

theorem mem_plug {x : Nat} :
    ⟨x, true⟩ ∈ absorb pre o ++ dropFree post ↔ (⟨x, true⟩ : Block) ∈ pre ∨ (⟨x, true⟩ : Block) ∈ post := by
  have hpost : (⟨x, true⟩ : Block) ∈ dropFree post ↔ (⟨x, true⟩ : Block) ∈ post := by
    rcases post with _ | ⟨⟨n, _ | _⟩, l⟩ <;> simp [dropFree]
  have hpre : (⟨x, true⟩ : Block) ∈ absorb pre o ↔ (⟨x, true⟩ : Block) ∈ pre := by
    rcases last_cases pre with rfl | ⟨r, p, rfl⟩ | ⟨r, p, rfl⟩ <;> simp
  rw [mem_append, hpre, hpost]

end RtosKernel.Lib.Tiling
