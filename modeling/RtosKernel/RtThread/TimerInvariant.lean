import RtosKernel.RtThread.Timer

/-! # The rows of the timer lists

The rows of the two timer lists and the lists of the checks are rings over one memory of links. -/
namespace RtosKernel.RtThread.Timer
open Lib.Word Lib.Ring Lib.RingFamily RtThread.Def RtThread.Service List Function

/-! ## Flags -/

section Flags
variable {r : RtTimer}

@[simp] theorem deactivate_activated : ¬ r.deactivate.activated := by
  have h : ∀ f : BitVec 8, f &&& ~~~flagActivated &&& flagActivated = 0 := by decide +kernel
  simp [RtTimer.activated, RtTimer.deactivate, h]

@[simp] theorem activate_activated : r.activate.activated := by
  have h : ∀ f : BitVec 8, (f ||| flagActivated) &&& flagActivated ≠ 0 := by decide +kernel
  exact h r.flag

@[simp] theorem kindOf_deactivate (c : Board) : kindOf c r.deactivate = kindOf c r := by
  have h : ∀ f : BitVec 8, f &&& ~~~flagActivated &&& flagSoftTimer = f &&& flagSoftTimer := by
    decide +kernel
  simp [kindOf, RtTimer.deactivate, h]

@[simp] theorem kindOf_activate (c : Board) : kindOf c r.activate = kindOf c r := by
  have h : ∀ f : BitVec 8, (f ||| flagActivated) &&& flagSoftTimer = f &&& flagSoftTimer := by
    decide +kernel
  simp [kindOf, RtTimer.activate, h]

theorem deactivate_periodic : r.deactivate.periodic ↔ r.periodic := by
  have h : ∀ f : BitVec 8, f &&& ~~~flagActivated &&& flagPeriodic = f &&& flagPeriodic := by
    decide +kernel
  simp [RtTimer.periodic, RtTimer.deactivate, h]

end Flags

/-! ## The rings -/

/-- The rings: the rows of the timer lists, and the list of each check. -/
inductive Ring
  | row (k : Kind) (lvl : Nat)
  | list (k : Kind)
  deriving DecidableEq

variable {Tid : Type}

def headOf : Ring → Node Tid
  | .row k lvl => .head k lvl
  | .list k => .list k

def levelOf (c : Board) : Ring → Nat
  | .row _ lvl => lvl
  | .list _ => c.bottom

def nodeOf (c : Board) (i : Ring) (t : Tid) : Node Tid := .row t (levelOf c i)

abbrev Rows (Tid : Type) := Ring → List Tid

theorem headOf_injective : Function.Injective (@headOf Tid) := by
  intro i j h
  cases i <;> cases j <;> simp_all [headOf]

theorem nodeOf_injective (c : Board) (i : Ring) : Function.Injective (@nodeOf Tid c i) := by
  intro a b h
  exact (Node.row.inj h).1

variable [DecidableEq Tid] {c : Board} {s s' : Timers Tid} {rows rows' : Rows Tid} {m : RtList (Node Tid)}
  {k : Kind} {t x : Tid} {lvl : Nat}

theorem Board.bottom_add (c : Board) : c.bottom + 1 = c.skipListLevel := by
  have := c.level_pos
  unfold Board.bottom
  omega

theorem removeRows_holds (h : Holds m headOf (nodeOf c) rows) (t : Tid) : ∀ n : Nat,
    Holds (removeRows t n m) headOf (nodeOf c)
      fun i => if levelOf c i < n then (rows i).erase t else rows i
  | 0 => h
  | lvl + 1 => by
    refine rtListRemove_holds (removeRows_holds h t lvl) (fun i => ?_) fun i => ?_
    · cases i <;> simp [headOf]
    · by_cases hi : levelOf c i = lvl
      · have hlt : ¬ levelOf c i < lvl := by omega
        have hlt' : levelOf c i < lvl + 1 := by omega
        have hnode : (Node.row t lvl : Node Tid) = nodeOf c i t := by rw [nodeOf, hi]
        simp only [nodes, if_neg hlt, if_pos hlt', hnode]
        exact map_erase (nodeOf_injective c i) (rows i)
      · have hnot : ∀ l : List Tid, (Node.row t lvl : Node Tid) ∉ l.map (nodeOf c i) := by
          intro l hm
          obtain ⟨y, _, hy⟩ := List.mem_map.mp hm
          exact hi (Node.row.inj hy).2
        have hiff : levelOf c i < lvl + 1 ↔ levelOf c i < lvl := by omega
        rw [nodes, nodes, erase_of_not_mem (hnot _)]
        simp only [hiff]

/-- The rings of the timers. A row holds timers of its own list, which are in the row below as well; only the
timer whose timeout function runs may be on the list of a check. -/
structure Linked (c : Board) (s : Timers Tid) (rows : Rows Tid) : Prop where
  holds : Holds s.links headOf (nodeOf c) rows
  high : ∀ k lvl, c.bottom < lvl → rows (.row k lvl) = []
  below : ∀ k lvl t, lvl < c.bottom → t ∈ rows (.row k lvl) → t ∈ rows (.row k (lvl + 1))
  kind : ∀ k lvl t, t ∈ rows (.row k lvl) → kindOf c (s.timer t) = k
  onList : ∀ k t, t ∈ rows (.list k) → s.phase k = .callback t

omit [DecidableEq Tid] in
theorem Linked.nodup (h : Linked c s rows) (i : Ring) : (rows i).Nodup := IsFamily.nodup h.holds i

omit [DecidableEq Tid] in
theorem Linked.ring (h : Linked c s rows) (k : Kind) (lvl : Nat) :
    IsRing s.links.next s.links.prev (.head k lvl) ((rows (.row k lvl)).map (.row · lvl)) :=
  h.holds.ring (.row k lvl)

/-- **`_timer_remove`** takes a timer out of every ring. -/
theorem timerRemove_linked (h : Linked c s rows) (t : Tid) :
    Linked c (timerRemove c s t) fun i => (rows i).erase t := by
  have hnd := h.nodup
  refine ⟨?_, fun k lvl hlvl => ?_, fun k lvl x hlvl hx => ?_, fun k lvl x hx => ?_, fun k x hx => ?_⟩
  · have hrem := removeRows_holds h.holds t c.skipListLevel
    refine hrem.congr fun i => ?_
    by_cases hi : levelOf c i < c.skipListLevel
    · simp only [nodes, if_pos hi]
    · have hempty : rows i = [] := by
        have hb := c.bottom_add
        cases i with
        | row k lvl => exact h.high k lvl (by simp only [levelOf] at hi; omega)
        | list k => exact absurd (show c.bottom < _ by omega) hi
      simp only [nodes, if_neg hi, hempty, erase_nil]
  · rw [h.high k lvl hlvl, erase_nil]
  · rw [(hnd _).mem_erase_iff] at hx ⊢
    exact ⟨hx.1, h.below k lvl x hlvl hx.2⟩
  · exact h.kind k lvl x (mem_of_mem_erase hx)
  · exact h.onList k x (mem_of_mem_erase hx)

/-! ## The walk -/

theorem walkRow_eq {T : Nat} (h : Linked c s rows) : ∀ {l2 l1 : List Tid} {fuel : Nat},
    rows (.row k lvl) = l1 ++ l2 → l2.length < fuel →
    walkRow s k T lvl fuel (before (.head k lvl) (l1.map (.row · lvl))) =
      some (before (.head k lvl)
        ((l1 ++ l2.takeWhile fun x => passes T (s.timer x)).map (.row · lvl)))
  | [], l1, fuel + 1, hsplit, _ => by
    have hring := h.ring k lvl
    rw [hsplit, List.append_nil] at hring
    simp [walkRow, hring.prev_head]
  | y :: l2, l1, fuel + 1, hsplit, hfuel => by
    have hring := h.ring k lvl
    rw [hsplit, map_append, map_cons] at hring
    have hnext : s.links.next (before (.head k lvl) (l1.map (.row · lvl))) = .row y lvl :=
      (links_split.mp hring.links).2.next_eq
    -- the walk is not at the end of the row
    have hne : before (.head k lvl) (l1.map (.row · lvl)) ≠ s.links.prev (.head k lvl) := by
      have hend : s.links.prev (.head k lvl) = before (.row y lvl) (l2.map (.row · lvl)) := by
        have hp := (links_append.mp hring.links).2.prev_eq
        exact hp
      rw [hend]
      intro he
      have hb := before_mem (.head k lvl) (l1.map (Node.row · lvl))
      rw [he] at hb
      exact notMem_before hring.nodup (before_mem (.row y lvl) (l2.map (Node.row · lvl))) hb
    rw [length_cons] at hfuel
    rw [walkRow, if_pos hne, hnext]
    simp only [entry, bind, Option.bind_some]
    by_cases hp : passes T (s.timer y)
    · have hsplit' : rows (.row k lvl) = l1 ++ [y] ++ l2 := by
        rw [hsplit, append_assoc, singleton_append]
      have ih := walkRow_eq (T := T) h hsplit' (show l2.length < fuel by omega)
      rw [map_append, map_singleton, before_append_singleton] at ih
      rw [if_pos hp, ih, takeWhile_cons_of_pos (by simpa using hp), append_assoc, singleton_append]
    · rw [if_neg hp, takeWhile_cons_of_neg (by simpa using hp), List.append_nil]
      rfl

/-- The walk for the timeout `T` passes no timer behind one that it stops at. -/
def Closed (s : Timers Tid) (T : Nat) (l : List Tid) : Prop :=
  l.Pairwise fun a b => passes T (s.timer b) → passes T (s.timer a)

/-- The place the walk finds in a row: `l` before it and `r` behind it, with `node`
the last node before it. -/
structure Spot (s : Timers Tid) (rows : Rows Tid) (k : Kind) (T lvl : Nat) (node : Node Tid)
    (l r : List Tid) : Prop where
  split : rows (.row k lvl) = l ++ r
  node_eq : node = before (.head k lvl) (l.map (.row · lvl))
  passed : (∀ lvl, Closed s T (rows (.row k lvl))) →
    (∀ x ∈ l, passes T (s.timer x)) ∧ ∀ x ∈ r, ¬ passes T (s.timer x)

omit [DecidableEq Tid] in
theorem Closed.dropWhile {T : Nat} : ∀ {l : List Tid}, Closed s T l →
    ∀ x ∈ l.dropWhile fun x => passes T (s.timer x), ¬ passes T (s.timer x)
  | [], _, x, hx => by simp at hx
  | y :: l, hp, x, hx => by
    obtain ⟨hy, hl⟩ := pairwise_cons.mp hp
    by_cases hpass : passes T (s.timer y)
    · rw [dropWhile_cons_of_pos (by simpa using hpass)] at hx
      exact Closed.dropWhile hl x hx
    · rw [dropWhile_cons_of_neg (by simpa using hpass)] at hx
      rcases mem_cons.mp hx with rfl | hx
      · exact hpass
      · exact fun hxp => hpass (hy x hx hxp)

omit [DecidableEq Tid] in
theorem Linked.start_below {T : Nat} {l : List Tid} (h : Linked c s rows) (hlvl : lvl < c.bottom)
    (hl : ∀ x ∈ l, x ∈ rows (.row k lvl)) :
    ∃ l1 l2, rows (.row k (lvl + 1)) = l1 ++ l2 ∧
      Timer.below (before (.head k lvl) (l.map (.row · lvl))) =
        before (.head k (lvl + 1)) (l1.map (.row · (lvl + 1))) ∧
      (Closed s T (rows (.row k (lvl + 1))) → (∀ x ∈ l, passes T (s.timer x)) →
        ∀ x ∈ l1, passes T (s.timer x)) := by
  rcases eq_nil_or_concat l with rfl | ⟨l, y, rfl⟩
  · exact ⟨[], _, rfl, rfl, by simp⟩
  · rw [concat_eq_append] at hl ⊢
    have hy := h.below k lvl y hlvl (hl y (by simp))
    obtain ⟨l1, l2, hsplit⟩ := append_of_mem hy
    refine ⟨l1 ++ [y], l2, by rw [hsplit, append_assoc, singleton_append], ?_, fun hc hp x hx => ?_⟩
    · rw [map_append, map_append, map_singleton, map_singleton, before_append_singleton, before_append_singleton]
      rfl
    · rw [hsplit] at hc
      have hbefore := (pairwise_append.mp hc).2.2
      rcases mem_append.mp hx with hx | hx
      · exact hbefore x hx y (mem_cons_self ..) (hp y (by simp))
      · rw [mem_singleton.mp hx]
        exact hp y (by simp)

variable [Fintype Tid]

omit [DecidableEq Tid] in
theorem Linked.length_lt (h : Linked c s rows) {i : Ring} {l r : List Tid} (hsplit : rows i = l ++ r) :
    r.length < enough Tid := by
  have hnd := h.nodup i
  rw [hsplit] at hnd
  have := (nodup_append.mp hnd).2.1.length_le_card
  unfold enough
  omega

theorem walkRows_spec {T : Nat} (h : Linked c s rows) : ∀ {n lvl : Nat} (rowHead : Nat → Node Tid)
    {l1 l2 : List Tid}, lvl + (n + 1) = c.skipListLevel → rows (.row k lvl) = l1 ++ l2 →
    rowHead lvl = before (.head k lvl) (l1.map (.row · lvl)) →
    ((∀ lvl, Closed s T (rows (.row k lvl))) → ∀ x ∈ l1, passes T (s.timer x)) →
    ∃ rowHead', walkRows (enough Tid) s k T (n + 1) lvl rowHead = some rowHead' ∧
      (∀ j, j < lvl → rowHead' j = rowHead j) ∧
      ∀ j, lvl ≤ j → j ≤ c.bottom → ∃ l r, Spot s rows k T j (rowHead' j) l r
  | n, lvl, rowHead, l1, l2, hn, hsplit, hstart, hpass => by
    have hfuel := h.length_lt hsplit
    have hwalk := walkRow_eq (T := T) h hsplit hfuel
    set l := l1 ++ l2.takeWhile fun x => passes T (s.timer x) with hl
    set node := before (.head k lvl) (l.map (Node.row · lvl)) with hnode
    have hspot : Spot s rows k T lvl node l (l2.dropWhile fun x => passes T (s.timer x)) := by
      refine ⟨?_, rfl, fun hc => ⟨fun x hx => ?_, ?_⟩⟩
      · rw [hsplit, hl, append_assoc, takeWhile_append_dropWhile]
      · rcases mem_append.mp hx with hx | hx
        · exact hpass hc x hx
        · simpa using mem_takeWhile_imp hx
      · have hclosed := hc lvl
        rw [hsplit] at hclosed
        exact Closed.dropWhile (pairwise_append.mp hclosed).2.1
    have hbottom := c.bottom_add
    cases n with
    | zero =>
      refine ⟨update rowHead lvl node, ?_, fun j hj => ?_, fun j hj hj' => ?_⟩
      · simp only [walkRows, hstart, hwalk, bind, Option.bind_some, ne_eq, not_true_eq_false, if_false]
      · exact update_of_ne (by omega) _ _
      · obtain rfl : j = lvl := by omega
        rw [update_self]
        exact ⟨_, _, hspot⟩
    | succ n =>
      have hin : ∀ x ∈ l, x ∈ rows (.row k lvl) := fun x hx => by
        rw [hspot.split]
        exact mem_append_left _ hx
      obtain ⟨l1', l2', hsplit', hstart', hpass'⟩ := h.start_below (T := T) (by omega) hin
      set rowHead1 := update (update rowHead lvl node) (lvl + 1)
        (Timer.below node) with h1
      have hstart1 : rowHead1 (lvl + 1) = before (.head k (lvl + 1)) (l1'.map (.row · (lvl + 1))) := by
        rw [h1, update_self]
        exact hstart'
      obtain ⟨rowHead', hw, hlow, hspots⟩ := walkRows_spec h rowHead1
        (show lvl + 1 + (n + 1) = _ by omega) hsplit' hstart1 fun hc => hpass' (hc _) (hspot.passed hc).1
      refine ⟨rowHead', ?_, fun j hj => ?_, fun j hj hj' => ?_⟩
      · rw [walkRows, hstart, hwalk]
        exact hw
      · rw [hlow j (by omega), h1, update_of_ne (by omega), update_of_ne (by omega)]
      · rcases Nat.eq_or_lt_of_le hj with rfl | hlt
        · rw [hlow lvl (by omega), h1, update_of_ne (by omega), update_self]
          exact ⟨_, _, hspot⟩
        · exact hspots j hlt hj'

/-! ## Linking a timer -/

/-- The rings with the timer linked in the rows from `lowest` on, at the places found. -/
def placed (c : Board) (rows : Rows Tid) (k : Kind) (ls rs : Nat → List Tid) (t : Tid) (lowest : Nat) :
    Rows Tid
  | .row k' lvl => if k' = k ∧ lowest ≤ lvl ∧ lvl ≤ c.bottom then ls lvl ++ t :: rs lvl
    else rows (.row k' lvl)
  | .list k' => rows (.list k')

section Link
variable {T : Nat} {rowHead : Nat → Node Tid} {ls rs : Nat → List Tid} {lowest : Nat}
  (hspots : ∀ lvl, lvl ≤ c.bottom → Spot s rows k T lvl (rowHead lvl) (ls lvl) (rs lvl))
  (hfresh : ∀ i, t ∉ rows i)
include hspots hfresh

omit [Fintype Tid] in
theorem placed_insert (hlvl : lvl ≤ c.bottom) (h : Holds m headOf (nodeOf c) (placed c rows k ls rs t (lvl + 1))) :
    Holds (rtListInsertAfter m (rowHead lvl) (.row t lvl)) headOf (nodeOf c)
      (placed c rows k ls rs t lvl) := by
  have hspot := hspots lvl hlvl
  have hsplit : placed c rows k ls rs t (lvl + 1) (.row k lvl) = ls lvl ++ rs lvl := by
    simp only [placed]
    rw [if_neg (by omega), hspot.split]
  have hnew : ∀ j, nodeOf c (.row k lvl) t ∉ headOf j :: nodes (nodeOf c)
      (placed c rows k ls rs t (lvl + 1)) j := by
    intro j hm
    rcases mem_cons.mp hm with he | hm
    · cases j <;> simp [nodeOf, headOf] at he
    · obtain ⟨y, hy, he⟩ := List.mem_map.mp hm
      obtain ⟨rfl, hl⟩ := Node.row.inj he
      cases j with
      | list k' => exact hfresh (.list k') hy
      | row k' lvl' =>
        obtain rfl : lvl' = lvl := hl
        simp only [placed] at hy
        rw [if_neg (by omega)] at hy
        exact hfresh _ hy
  have hins := rtListInsertAfter_holds h hsplit hnew
  rw [hspot.node_eq]
  refine hins.congr fun i => ?_
  have hrow : placed c rows k ls rs t lvl i =
      update (placed c rows k ls rs t (lvl + 1)) (.row k lvl) (ls lvl ++ t :: rs lvl) i := by
    by_cases hi : i = .row k lvl
    · subst hi
      rw [update_self]
      simp only [placed]
      rw [if_pos ⟨trivial, le_refl _, hlvl⟩]
    · rw [update_of_ne hi]
      cases i with
      | list k' => rfl
      | row k' lvl' =>
        have hne : ¬ (k' = k ∧ lvl' = lvl) := fun ⟨e1, e2⟩ => hi (by rw [e1, e2])
        have hiff : (k' = k ∧ lvl ≤ lvl' ∧ lvl' ≤ c.bottom) ↔ (k' = k ∧ lvl + 1 ≤ lvl' ∧ lvl' ≤ c.bottom) := by
          constructor
          · rintro ⟨hk, h1, h2⟩
            have : lvl' ≠ lvl := fun e => hne ⟨hk, e⟩
            exact ⟨hk, by omega, h2⟩
          · rintro ⟨hk, h1, h2⟩
            exact ⟨hk, by omega, h2⟩
        simp only [placed, hiff]
  rw [nodes, nodes, hrow]

omit [Fintype Tid] in
theorem insertRows_holds : ∀ {lvl : Nat} (tstNr : Nat) {m : RtList (Node Tid)}, lvl ≤ c.bottom →
    Holds m headOf (nodeOf c) (placed c rows k ls rs t lvl) →
    ∃ lowest, lowest ≤ lvl ∧
      Holds (insertRows c rowHead t lvl tstNr m) headOf (nodeOf c) (placed c rows k ls rs t lowest)
  | 0, _, m, _, h => ⟨0, le_refl _, h⟩
  | lvl + 1, tstNr, m, hlvl, h => by
    rw [insertRows]
    split
    · have hins := placed_insert hspots hfresh (show lvl ≤ c.bottom by omega) h
      obtain ⟨lowest, hle, hh⟩ := insertRows_holds _ (show lvl ≤ c.bottom by omega) hins
      exact ⟨lowest, by omega, hh⟩
    · exact ⟨lvl + 1, le_refl _, h⟩

end Link

/-- The tick at which a timer started now is due. -/
def dueTick (s : Timers Tid) (t : Tid) : Nat := add32 s.tick (s.timer t).initTick

/-- The record of a timer started now. -/
def startedTimer (s : Timers Tid) (t : Tid) : RtTimer :=
  { (s.timer t).deactivate with timeoutTick := dueTick s t }.activate

/-- What `rt_timer_start` does: the timer leaves every ring, and enters the last row
of its list and those above it down to some row, at the place the walk found. -/
structure Starts (c : Board) (s : Timers Tid) (rows : Rows Tid) (t : Tid) (s' : Timers Tid)
    (rows' : Rows Tid) (ls rs : Nat → List Tid) (lowest : Nat) : Prop where
  linked : Linked c s' rows'
  tick : s'.tick = s.tick
  phase : s'.phase = s.phase
  timer : s'.timer = update s.timer t (startedTimer s t)
  started : s'.started = s.started.erase t ++ [t]
  lowest_le : lowest ≤ c.bottom
  rows_eq : rows' = placed c (fun i => (rows i).erase t) (kindOf c (s.timer t)) ls rs t lowest
  split : ∀ lvl, lvl ≤ c.bottom → (rows (.row (kindOf c (s.timer t)) lvl)).erase t = ls lvl ++ rs lvl
  passed : (∀ lvl, Closed s (dueTick s t) ((rows (.row (kindOf c (s.timer t)) lvl)).erase t)) →
    ∀ lvl, lvl ≤ c.bottom → (∀ x ∈ ls lvl, passes (dueTick s t) (s.timer x)) ∧
      ∀ x ∈ rs lvl, ¬ passes (dueTick s t) (s.timer x)

omit [Fintype Tid] [DecidableEq Tid] in
theorem placed_linked {ls rs : Nat → List Tid} {lowest : Nat} (h : Linked c s rows)
    (hsplit : ∀ lvl, lvl ≤ c.bottom → rows (.row k lvl) = ls lvl ++ rs lvl)
    (hkind : kindOf c (s.timer t) = k)
    (hh : Holds m headOf (nodeOf c) (placed c rows k ls rs t lowest)) :
    Linked c { s with links := m } (placed c rows k ls rs t lowest) := by
  have hmem : ∀ k' lvl x, x ∈ placed c rows k ls rs t lowest (.row k' lvl) →
      x ∈ rows (.row k' lvl) ∨ x = t ∧ k' = k ∧ lowest ≤ lvl := by
    intro k' lvl x hx
    simp only [placed] at hx
    split at hx
    · rename_i hc
      obtain ⟨rfl, h1, h2⟩ := hc
      rw [hsplit lvl h2]
      simp only [mem_append, mem_cons] at hx ⊢
      tauto
    · exact .inl hx
  have hold : ∀ k' lvl x, x ∈ rows (.row k' lvl) → x ∈ placed c rows k ls rs t lowest (.row k' lvl) := by
    intro k' lvl x hx
    simp only [placed]
    split
    · rename_i hc
      obtain ⟨rfl, h1, h2⟩ := hc
      rw [hsplit lvl h2] at hx
      simp only [mem_append, mem_cons] at hx ⊢
      tauto
    · exact hx
  refine ⟨hh, fun k' lvl hlvl => ?_, fun k' lvl x hlvl hx => ?_, fun k' lvl x hx => ?_, h.onList⟩
  · simp only [placed]
    rw [if_neg (by omega), h.high k' lvl hlvl]
  · rcases hmem k' lvl x hx with hx | ⟨rfl, rfl, hlow⟩
    · exact hold _ _ _ (h.below k' lvl x hlvl hx)
    · simp only [placed]
      rw [if_pos ⟨trivial, by omega, by omega⟩]
      simp
  · rcases hmem k' lvl x hx with hx | ⟨rfl, rfl, _⟩
    · exact h.kind k' lvl x hx
    · exact hkind

theorem insertTimer_spec (h : Linked c s rows) (hfresh : ∀ i, t ∉ rows i)
    (hk : kindOf c (s.timer t) = k) :
    ∃ m randomNr ls rs lowest, insertTimer c s t = some { s with links := m, randomNr } ∧
      lowest ≤ c.bottom ∧ Linked c { s with links := m } (placed c rows k ls rs t lowest) ∧
      (∀ lvl, lvl ≤ c.bottom → rows (.row k lvl) = ls lvl ++ rs lvl) ∧
      ((∀ lvl, Closed s (s.timer t).timeoutTick (rows (.row k lvl))) → ∀ lvl, lvl ≤ c.bottom →
        (∀ x ∈ ls lvl, passes (s.timer t).timeoutTick (s.timer x)) ∧
          ∀ x ∈ rs lvl, ¬ passes (s.timer t).timeoutTick (s.timer x)) := by
  set T := (s.timer t).timeoutTick with hT
  obtain ⟨rowHead, hwalk, _, hspots⟩ := walkRows_spec (k := k) (T := T) h (fun _ => .head k 0)
    (show 0 + (c.bottom + 1) = c.skipListLevel by have := c.bottom_add; omega)
    (nil_append _).symm rfl (by simp)
  have hspots' : ∀ lvl, ∃ l r, lvl ≤ c.bottom → Spot s rows k T lvl (rowHead lvl) l r := by
    intro lvl
    by_cases hlvl : lvl ≤ c.bottom
    · obtain ⟨l, r, hspot⟩ := hspots lvl (Nat.zero_le _) hlvl
      exact ⟨l, r, fun _ => hspot⟩
    · exact ⟨[], [], fun hle => absurd hle hlvl⟩
  choose ls rs hspot using hspots'
  -- the last row, and then the rows above it
  have hstart : placed c rows k ls rs t (c.bottom + 1) = rows := by
    funext i
    cases i with
    | list k' => rfl
    | row k' lvl => simp only [placed]; rw [if_neg (by omega)]
  have hb : Holds (rtListInsertAfter s.links (rowHead c.bottom) (.row t c.bottom)) headOf (nodeOf c)
      (placed c rows k ls rs t c.bottom) := by
    refine placed_insert hspot hfresh (le_refl _) ?_
    rw [hstart]
    exact h.holds
  obtain ⟨lowest, hlow, hh⟩ := insertRows_holds hspot hfresh (add32 s.randomNr 1) (le_refl _) hb
  refine ⟨_, add32 s.randomNr 1, ls, rs, lowest, ?_, hlow, placed_linked h (fun lvl hlvl => (hspot lvl hlvl).split) hk hh,
    fun lvl hlvl => (hspot lvl hlvl).split, fun hc lvl hlvl => (hspot lvl hlvl).passed hc⟩
  rw [insertTimer, hk, ← c.bottom_add, hwalk]
  rfl

/-- **`rt_timer_start`** returns, with the timer linked. -/
theorem rtTimerStart_spec (h : Linked c s rows) (t : Tid) :
    ∃ s' rows' ls rs lowest, rtTimerStart c s t = some s' ∧ Starts c s rows t s' rows' ls rs lowest := by
  set rows1 : Rows Tid := fun i => (rows i).erase t with hrows1
  have h1 := timerRemove_linked h t
  have hfresh : ∀ i, t ∉ rows1 i := fun i => by
    rw [hrows1, (h.nodup i).mem_erase_iff]
    simp
  set r : RtTimer := { (s.timer t).deactivate with timeoutTick := dueTick s t } with hr
  set s2 := (timerRemove c s t).set t r with hs2
  have hmine : s2.timer t = r := update_self ..
  have hother : ∀ x, x ≠ t → s2.timer x = s.timer x := fun x hx => update_of_ne hx _ _
  have hkind : kindOf c (s2.timer t) = kindOf c (s.timer t) := by
    rw [hmine]
    exact kindOf_deactivate (r := s.timer t) c
  -- the links of the walk are those of the rows without the timer
  have h2 : Linked c s2 rows1 := by
    refine ⟨h1.holds, h1.high, h1.below, fun k' lvl x hx => ?_, h1.onList⟩
    rw [hother x fun e => hfresh _ (e ▸ hx)]
    exact h1.kind k' lvl x hx
  obtain ⟨m, randomNr, ls, rs, lowest, he, hlow, hlinked, hsplit, hpassed⟩ :=
    insertTimer_spec h2 hfresh hkind
  have hdue : (s2.timer t).timeoutTick = dueTick s t := by rw [hmine]
  rw [hdue] at hpassed
  have htimer : update s2.timer t (s2.timer t).activate = update s.timer t (startedTimer s t) := by
    rw [hmine, hs2, Timers.set, update_idem]
    rfl
  refine ⟨{ s2 with
      links := m
      randomNr
      timer := update s2.timer t (s2.timer t).activate
      started := s.started.erase t ++ [t] }, placed c rows1 (kindOf c (s.timer t)) ls rs t lowest, ls, rs,
    lowest, ?_, ⟨hlinked.holds, hlinked.high, hlinked.below, fun k' lvl x hx => ?_, hlinked.onList⟩, rfl,
    rfl, htimer, rfl, hlow, rfl, hsplit, fun hc lvl hlvl => ?_⟩
  · have hgo : rtTimerStart c s t = (insertTimer c s2 t).bind fun s =>
        some { s.set t (s.timer t).activate with started := s.started.erase t ++ [t] } := rfl
    rw [hgo, he]
    rfl
  · have hk : kindOf c (s2.timer x) = k' := hlinked.kind k' lvl x hx
    change kindOf c (update s2.timer t (s2.timer t).activate x) = k'
    by_cases hx : x = t
    · subst hx
      rw [update_self, kindOf_activate]
      exact hk
    · rw [update_of_ne hx]
      exact hk
  · have hin : ∀ x ∈ ls lvl ++ rs lvl, x ≠ t := fun x hx e => by
      rw [← hsplit lvl hlvl] at hx
      exact hfresh _ (e ▸ hx)
    have hclosed : ∀ lvl, Closed s2 (dueTick s t) (rows1 (.row (kindOf c (s.timer t)) lvl)) := by
      intro lvl
      refine List.Pairwise.imp_of_mem (fun {a b} ha hb hab => ?_) (hc lvl)
      have hat : a ≠ t := ne_of_mem_of_not_mem ha (hfresh (.row _ lvl))
      have hbt : b ≠ t := ne_of_mem_of_not_mem hb (hfresh (.row _ lvl))
      rw [hother a hat, hother b hbt]
      exact hab
    obtain ⟨hl, hr⟩ := hpassed hclosed lvl hlvl
    refine ⟨fun x hx => ?_, fun x hx => ?_⟩
    · rw [← hother x (hin x (mem_append_left _ hx))]
      exact hl x hx
    · rw [← hother x (hin x (mem_append_right _ hx))]
      exact hr x hx

end RtosKernel.RtThread.Timer
