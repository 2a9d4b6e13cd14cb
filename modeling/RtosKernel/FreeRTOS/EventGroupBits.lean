import RtosKernel.Lib.Runs
import RtosKernel.FreeRTOS.EventGroup

/-! # No task waits for bits that are set

`xEventGroupSetBits` releases the tasks whose condition is met by the bits it has set, all with the same value,
and what is left of the bits does not depend on the order of the list. -/
namespace RtosKernel.FreeRTOS.EventGroups
open Lib.BitSet FreeRTOS.Def List Function
open Option (bind_eq_some_iff map_eq_some_iff some_get)

variable {Tid : Type} [dT : DecidableEq Tid] {n : Nat}

/-! ## The value of the event list item -/

def Wait.itemValue (v : Wait n) : EventBits n :=
  (v.uxBitsToWaitFor ||| ((if v.xClearOnExit then clearEventsOnExitBit n else 0#_) |||
    (if v.xWaitForAllBits then waitForAllBits n else 0#_))) ||| eventListItemValueInUse n

def Plain (b : EventBits n) : Prop := b &&& eventBitsControlBytes n = 0#_
  deriving Decidable

theorem getLsbD_controlBytes (i : Nat) :
    (eventBitsControlBytes n).getLsbD i = (decide (n ≤ i) && decide (i < n + 8)) := by
  have hff : ∀ j < 8, Nat.testBit 255 j = true := by decide
  simp only [eventBitsControlBytes, BitVec.getLsbD_shiftLeft, BitVec.getLsbD_ofNat]
  by_cases hn : n ≤ i
  · by_cases hi : i < n + 8
    · simp [hn, hi, hff (i - n) (by omega), Nat.not_lt.mpr hn, show i - n < n + 8 by omega]
    · simp [hi]
  · simp [hn, Nat.lt_of_not_le hn]

theorem plain_iff {b : EventBits n} : Plain b ↔ ∀ i, n ≤ i → b.getLsbD i = false := by
  unfold Plain
  rw [eq_zero_iff]
  refine forall_congr' fun i => ?_
  rw [BitVec.getLsbD_and, getLsbD_controlBytes]
  by_cases hi : i < n + 8
  · by_cases hn : n ≤ i
    · simp [hn, hi]
    · simp [hn]
  · simp [hi, BitVec.getLsbD_of_ge b i (by omega)]

theorem and_twoPow_eq_zero {w k : Nat} (b : BitVec w) : b &&& BitVec.twoPow w k = 0#w ↔ b.getLsbD k = false := by
  rw [eq_zero_iff]
  constructor
  · intro h
    have hk := h k
    by_cases hlt : k < w
    · simpa [hlt] using hk
    · exact BitVec.getLsbD_of_ge b k (by omega)
  · intro h i
    by_cases hik : k = i
    · subst hik; simp [h]
    · simp [hik]

theorem getLsbD_ite_twoPow (c : Bool) (w k i : Nat) :
    (if c = true then BitVec.twoPow w k else 0#w).getLsbD i = (c && (decide (k < w) && decide (k = i))) := by
  cases c with
  | true => simp [BitVec.getLsbD_twoPow]
  | false => simp

theorem getLsbD_itemValue (v : Wait n) (i : Nat) :
    v.itemValue.getLsbD i = (v.uxBitsToWaitFor.getLsbD i || (v.xClearOnExit && decide (i = n)) ||
      (v.xWaitForAllBits && decide (i = n + 2)) || decide (i = n + 7)) := by
  simp only [Wait.itemValue, clearEventsOnExitBit, waitForAllBits, eventListItemValueInUse, BitVec.getLsbD_or,
    getLsbD_ite_twoPow, BitVec.getLsbD_twoPow]
  have h0 : n < n + 8 := by omega
  have h2 : n + 2 < n + 8 := by omega
  have h7 : n + 7 < n + 8 := by omega
  simp only [h0, h2, h7, decide_true, Bool.true_and, eq_comm (a := i), Bool.or_assoc]

section ItemValue
variable {v : Wait n} (hv : Plain v.uxBitsToWaitFor)
include hv

theorem itemValue_bits : v.itemValue &&& ~~~eventBitsControlBytes n = v.uxBitsToWaitFor := by
  refine BitVec.eq_of_getLsbD_eq fun i hi => ?_
  rw [getLsbD_andNot, getLsbD_itemValue, getLsbD_controlBytes]
  have hplain := plain_iff.mp hv
  by_cases hn : n ≤ i
  · rw [hplain i hn]
    simp [hn, hi]
  · simp [hn, show ¬ i = n by omega, show ¬ i = n + 2 by omega, show ¬ i = n + 7 by omega]

theorem itemValue_control {k : Nat} (hk : k < 8) :
    (v.itemValue &&& eventBitsControlBytes n) &&& BitVec.twoPow (n + 8) (n + k) = 0#_ ↔
      ¬ ((v.xClearOnExit = true ∧ k = 0) ∨ (v.xWaitForAllBits = true ∧ k = 2) ∨ k = 7) := by
  have hbit := plain_iff.mp hv (n + k) (by omega)
  rw [and_twoPow_eq_zero, BitVec.getLsbD_and, getLsbD_itemValue, getLsbD_controlBytes]
  simp only [hbit, Nat.le_add_right, decide_true, show n + k < n + 8 by omega, Bool.and_true, Bool.false_or,
    Nat.add_left_cancel_iff, Nat.add_eq_left]
  rw [Bool.eq_false_iff]
  simp only [ne_eq, Bool.or_eq_true, Bool.and_eq_true, decide_eq_true_eq, or_assoc]

theorem matchFound_itemValue (bits : EventBits n) :
    matchFound bits v.itemValue = true ↔ Met v.xWaitForAllBits v.uxBitsToWaitFor bits := by
  have hall := itemValue_control hv (show 2 < 8 by decide)
  simp only [Nat.reduceEqDiff, and_false, or_false, false_or, and_true] at hall
  have hiff : (v.itemValue &&& eventBitsControlBytes n) &&& waitForAllBits n = 0#_ ↔ ¬ v.xWaitForAllBits = true := hall
  simp only [matchFound, itemValue_bits hv, Met, BitVec.and_comm v.uxBitsToWaitFor bits]
  by_cases h : v.xWaitForAllBits = true
  · rw [if_neg (fun h0 => hiff.mp h0 h), if_pos h]
    simp
  · rw [if_pos (hiff.mpr h), if_neg h]
    simp

theorem clear_itemValue :
    (v.itemValue &&& eventBitsControlBytes n) &&& clearEventsOnExitBit n ≠ 0#_ ↔ v.xClearOnExit = true := by
  have hclear := itemValue_control hv (show 0 < 8 by decide)
  simp only [and_true, OfNat.zero_ne_ofNat, and_false, or_false, Nat.add_zero] at hclear
  rw [Ne, clearEventsOnExitBit, hclear, not_not]

end ItemValue

theorem prvTestWaitCondition_iff {bits waited : EventBits n} {all : Bool} :
    prvTestWaitCondition bits waited all = true ↔ Met all waited bits := by
  cases all with
  | true => simp [prvTestWaitCondition, Met]
  | false => simp [prvTestWaitCondition, Met]

/-! ## The walk -/

/-- The value a task is released with. -/
def released (bits : EventBits n) : EventBits n := (bits ||| unblockedDueToBitSet n) ||| eventListItemValueInUse n

/-- The walk over `l` finds these tasks. -/
def Found (g : EventGroup Tid n) (l : List Tid) (t : Tid) : Prop := t ∈ l ∧ matchFound g.uxEventBits (g.item t) = true

/-- The result of the walk over `l`. -/
structure Walked (g : EventGroup Tid n) (c : EventBits n) (l : List Tid) (r : EventGroup Tid n × EventBits n) : Prop where
  bits : r.1.uxEventBits = g.uxEventBits
  waits : r.1.waits = g.waits
  nodup : r.1.xTasksWaitingForBits.Nodup
  mem : ∀ t, t ∈ r.1.xTasksWaitingForBits ↔ t ∈ g.xTasksWaitingForBits ∧ ¬ Found g l t
  item_found : ∀ t, Found g l t → r.1.item t = released g.uxEventBits
  item_other : ∀ t, ¬ Found g l t → r.1.item t = g.item t
  clear : ∀ i, r.2.getLsbD i = true ↔ c.getLsbD i = true ∨ ∃ t, Found g l t ∧
    (g.item t &&& eventBitsControlBytes n) &&& clearEventsOnExitBit n ≠ 0#_ ∧
    (g.item t &&& ~~~eventBitsControlBytes n).getLsbD i = true

variable {g g' : EventGroup Tid n}

theorem setBitsLoop_walked {c : EventBits n} {l : List Tid} (hl : l.Nodup)
    (hg : g.xTasksWaitingForBits.Nodup) : Walked g c l (setBitsLoop g c l) := by
  induction l generalizing g c with
  | nil =>
    have hno : ∀ t, ¬ Found g [] t := fun t ht => by cases ht.1
    exact ⟨rfl, rfl, hg, fun t => by simp [hno, setBitsLoop], fun t ht => absurd ht (hno t), fun _ _ => rfl,
      fun i => by simp [hno, setBitsLoop]⟩
  | cons a l ih =>
    obtain ⟨ha, hl⟩ := nodup_cons.mp hl
    simp only [setBitsLoop]
    split
    · rename_i hmatch
      -- the task is taken out, and the walk over the others does not see the difference
      set g1 := vTaskRemoveFromUnorderedEventList g a (g.uxEventBits ||| unblockedDueToBitSet n) with hg1
      have hitem : ∀ t, t ≠ a → g1.item t = g.item t := fun t ht => update_of_ne ht _ _
      have hself : g1.item a = released g.uxEventBits := update_self ..
      have hfound : ∀ t, Found g (a :: l) t ↔ t = a ∨ Found g1 l t := by
        intro t
        by_cases ht : t = a
        · subst ht
          exact ⟨fun _ => .inl rfl, fun _ => ⟨mem_cons_self .., hmatch⟩⟩
        · simp only [Found, mem_cons, ht, false_or, hitem t ht]
          rfl
      have hnot : ¬ Found g1 l a := fun h => ha h.1
      have hne : ∀ t, Found g1 l t → t ≠ a := fun t ht he => hnot (he ▸ ht)
      have h := ih (g := g1) (c := if (g.item a &&& eventBitsControlBytes n) &&& clearEventsOnExitBit n ≠ 0#_ then
        c ||| (g.item a &&& ~~~eventBitsControlBytes n) else c) hl (hg.erase a)
      refine ⟨h.bits, h.waits, h.nodup, fun t => ?_, fun t ht => ?_, fun t ht => ?_, fun i => ?_⟩
      · rw [h.mem, hfound, show g1.xTasksWaitingForBits = g.xTasksWaitingForBits.erase a from rfl, hg.mem_erase_iff]
        tauto
      · rcases (hfound t).mp ht with rfl | ht
        · rw [h.item_other t hnot, hself]
        · exact h.item_found t ht
      · have hta : t ≠ a := fun he => ht ((hfound t).mpr (.inl he))
        rw [h.item_other t fun hf => ht ((hfound t).mpr (.inr hf)), hitem t hta]
      · rw [h.clear]
        have hrest : (∃ t, Found g1 l t ∧ (g1.item t &&& eventBitsControlBytes n) &&& clearEventsOnExitBit n ≠ 0#_ ∧
            (g1.item t &&& ~~~eventBitsControlBytes n).getLsbD i = true) ↔
            ∃ t, Found g1 l t ∧ (g.item t &&& eventBitsControlBytes n) &&& clearEventsOnExitBit n ≠ 0#_ ∧
            (g.item t &&& ~~~eventBitsControlBytes n).getLsbD i = true := by
          refine exists_congr fun t => and_congr_right fun hf => ?_
          rw [hitem t (hne t hf)]
        rw [hrest]
        constructor
        · rintro (hc | ⟨t, hf, hrest⟩)
          · split at hc
            · rename_i hclear
              rw [BitVec.getLsbD_or, Bool.or_eq_true] at hc
              exact hc.imp id fun hb => ⟨a, (hfound a).mpr (.inl rfl), hclear, hb⟩
            · exact .inl hc
          · exact .inr ⟨t, (hfound t).mpr (.inr hf), hrest⟩
        · rintro (hc | ⟨t, hf, hclear, hb⟩)
          · left
            split
            · simp [hc]
            · exact hc
          · rcases (hfound t).mp hf with rfl | hf
            · left
              rw [if_pos hclear]
              simp only [BitVec.getLsbD_or, Bool.or_eq_true]
              exact .inr hb
            · exact .inr ⟨t, hf, hclear, hb⟩
    · rename_i hmatch
      have hfound : ∀ t, Found g (a :: l) t ↔ Found g l t := by
        intro t
        by_cases ht : t = a
        · subst ht
          exact ⟨fun h => absurd h.2 hmatch, fun h => absurd h.1 ha⟩
        · simp [Found, ht]
      have h := ih (g := g) (c := c) hl hg
      refine ⟨h.bits, h.waits, h.nodup, fun t => ?_, fun t ht => ?_, fun t ht => ?_, fun i => ?_⟩
      · rw [h.mem, hfound]
      · exact h.item_found t ((hfound t).mp ht)
      · exact h.item_other t fun hf => ht ((hfound t).mpr hf)
      · rw [h.clear]
        simp only [hfound]

/-! ## The invariant -/

/-- A call waits for event bits, and for at least one. -/
structure Wait.Ok (v : Wait n) : Prop where
  plain : Plain v.uxBitsToWaitFor
  ne_zero : v.uxBitsToWaitFor ≠ 0#_

abbrev Wait.MetBy (v : Wait n) (bits : EventBits n) : Prop := Met v.xWaitForAllBits v.uxBitsToWaitFor bits

/-- The tasks in the list wait for what is in their items, and it is not there. -/
structure Inv (g : EventGroup Tid n) : Prop where
  plain : Plain g.uxEventBits
  nodup : g.xTasksWaitingForBits.Nodup
  waiting : ∀ t ∈ g.xTasksWaitingForBits, ∃ v, g.waits t = some v ∧ v.Ok ∧ g.item t = v.itemValue ∧
    ¬ v.MetBy g.uxEventBits

/-- What `xEventGroupSetBits` does. -/
structure SetsBits (g : EventGroup Tid n) (value : EventBits n) (g' : EventGroup Tid n) : Prop where
  waits : g'.waits = g.waits
  nodup : g'.xTasksWaitingForBits.Nodup
  mem : ∀ t v, g.waits t = some v → (t ∈ g'.xTasksWaitingForBits ↔ t ∈ g.xTasksWaitingForBits ∧ ¬ v.MetBy value)
  sub : ∀ t ∈ g'.xTasksWaitingForBits, t ∈ g.xTasksWaitingForBits
  item_met : ∀ t ∈ g.xTasksWaitingForBits, ∀ v, g.waits t = some v → v.MetBy value → g'.item t = released value
  item_other : ∀ t, (t ∈ g.xTasksWaitingForBits → ∀ v, g.waits t = some v → ¬ v.MetBy value) → g'.item t = g.item t
  bits : ∀ i, g'.uxEventBits.getLsbD i = true ↔ value.getLsbD i = true ∧
    ¬ ∃ t ∈ g.xTasksWaitingForBits, ∃ v, g.waits t = some v ∧ v.MetBy value ∧ v.xClearOnExit = true ∧
      v.uxBitsToWaitFor.getLsbD i = true

theorem xEventGroupSetBits_spec (h : Inv g) {b : EventBits n} (hb : Plain b) :
    ∃ g', xEventGroupSetBits g b = some g' ∧ SetsBits g (g.uxEventBits ||| b) g' := by
  set value := g.uxEventBits ||| b with hvalue
  set g1 : EventGroup Tid n := { g with uxEventBits := value } with hg1
  have hw : Walked g1 0#_ g.xTasksWaitingForBits (setBitsLoop g1 0#_ g.xTasksWaitingForBits) :=
    setBitsLoop_walked h.nodup h.nodup
  set r := setBitsLoop g1 0#_ g.xTasksWaitingForBits with hr
  have hfound : ∀ t v, g.waits t = some v → (Found g1 g.xTasksWaitingForBits t ↔
      t ∈ g.xTasksWaitingForBits ∧ v.MetBy value) := by
    intro t v hv
    refine and_congr_right fun ht => ?_
    obtain ⟨v', hv', hok, hitem, _⟩ := h.waiting t ht
    cases hv'.symm.trans hv
    show matchFound value (g.item t) = true ↔ _
    rw [hitem, matchFound_itemValue hok.plain]
  refine ⟨{ r.1 with uxEventBits := r.1.uxEventBits &&& ~~~r.2 }, ?_, ?_⟩
  · rw [xEventGroupSetBits, configAssert_of (show b &&& eventBitsControlBytes n = 0#_ from hb)]
    rfl
  refine ⟨hw.waits, hw.nodup, fun t v hv => ?_, fun t ht => ((hw.mem t).mp ht).1, fun t ht v hv hmet => ?_,
    fun t hno => ?_, fun i => ?_⟩
  · rw [hw.mem, hfound t v hv]
    show t ∈ g.xTasksWaitingForBits ∧ _ ↔ _
    tauto
  · exact hw.item_found t ((hfound t v hv).mpr ⟨ht, hmet⟩)
  · refine hw.item_other t fun hf => ?_
    obtain ⟨v, hv, _, _, _⟩ := h.waiting t hf.1
    exact hno hf.1 v hv ((hfound t v hv).mp hf).2
  · show (r.1.uxEventBits &&& ~~~r.2).getLsbD i = true ↔ _
    have hclear : r.2.getLsbD i = true ↔ ∃ t ∈ g.xTasksWaitingForBits, ∃ v, g.waits t = some v ∧ v.MetBy value ∧
        v.xClearOnExit = true ∧ v.uxBitsToWaitFor.getLsbD i = true := by
      rw [hw.clear]
      simp only [BitVec.getLsbD_zero, Bool.false_eq_true, false_or]
      constructor
      · rintro ⟨t, hf, hc, hi⟩
        obtain ⟨v, hv, hok, hitem, _⟩ := h.waiting t hf.1
        have hitem : g1.item t = v.itemValue := hitem
        rw [hitem] at hc hi
        rw [itemValue_bits hok.plain] at hi
        exact ⟨t, hf.1, v, hv, ((hfound t v hv).mp hf).2, (clear_itemValue hok.plain).mp hc, hi⟩
      · rintro ⟨t, ht, v, hv, hmet, hc, hi⟩
        obtain ⟨v', hv', hok, hitem, _⟩ := h.waiting t ht
        cases hv'.symm.trans hv
        have hitem : g1.item t = v.itemValue := hitem
        refine ⟨t, (hfound t v hv).mpr ⟨ht, hmet⟩, ?_, ?_⟩
        · rw [hitem]; exact (clear_itemValue hok.plain).mpr hc
        · rw [hitem, itemValue_bits hok.plain]; exact hi
    rw [getLsbD_andNot, Bool.and_eq_true, Bool.not_eq_true', ← Bool.not_eq_true, hclear, hw.bits]

theorem Plain.or {a b : EventBits n} (ha : Plain a) (hb : Plain b) : Plain (a ||| b) :=
  plain_iff.mpr fun i hi => by rw [BitVec.getLsbD_or, plain_iff.mp ha i hi, plain_iff.mp hb i hi]; rfl

section
omit dT

theorem Inv.shrink (h : Inv g) (hn : g'.xTasksWaitingForBits.Nodup)
    (hsub : ∀ t ∈ g'.xTasksWaitingForBits, t ∈ g.xTasksWaitingForBits ∧ g'.waits t = g.waits t ∧ g'.item t = g.item t)
    (hbits : ∀ i, g'.uxEventBits.getLsbD i = true → g.uxEventBits.getLsbD i = true) : Inv g' where
  plain := plain_iff.mpr fun i hi => by
    rw [← Bool.not_eq_true]
    intro hset
    have := hbits i hset
    rw [plain_iff.mp h.plain i hi] at this
    cases this
  nodup := hn
  waiting t ht := by
    obtain ⟨hmem, hw, hi⟩ := hsub t ht
    obtain ⟨v, hv, hok, hitem, hnot⟩ := h.waiting t hmem
    exact ⟨v, hw.trans hv, hok, hi.trans hitem, fun hmet => hnot (hmet.mono fun i _ hb => hbits i hb)⟩

theorem Inv.clear (h : Inv g) (b : EventBits n) :
    Inv { g with uxEventBits := g.uxEventBits &&& ~~~b } := by
  refine h.shrink h.nodup (fun t ht => ⟨ht, rfl, rfl⟩) fun i hi => ?_
  rw [getLsbD_andNot, Bool.and_eq_true] at hi
  exact hi.1

theorem SetsBits.inv {b : EventBits n} (h : Inv g) (hb : Plain b)
    (hs : SetsBits g (g.uxEventBits ||| b) g') : Inv g' where
  plain := plain_iff.mpr fun i hi => by
    rw [← Bool.not_eq_true]
    intro hset
    have := ((hs.bits i).mp hset).1
    rw [plain_iff.mp (h.plain.or hb) i hi] at this
    cases this
  nodup := hs.nodup
  waiting t ht := by
    obtain ⟨v, hv, hok, hitem, _⟩ := h.waiting t (hs.sub t ht)
    have hnot := ((hs.mem t v hv).mp ht).2
    refine ⟨v, hs.waits ▸ hv, hok, ?_, fun hmet => hnot (hmet.mono fun i _ hi => ((hs.bits i).mp hi).1)⟩
    rw [hs.item_other t fun _ v' hv' => by cases hv.symm.trans hv'; exact hnot, hitem]

end

theorem Inv.block (h : Inv g) {t : Tid} (ht : g.waits t = none) {v : Wait n} (hok : v.Ok)
    (hnot : ¬ v.MetBy g.uxEventBits) : Inv (block g t v) := by
  have hmem : t ∉ g.xTasksWaitingForBits := fun hm => by
    obtain ⟨v', hv', _⟩ := h.waiting t hm
    rw [ht] at hv'
    cases hv'
  refine ⟨h.plain, ?_, fun x hx => ?_⟩
  · show (g.xTasksWaitingForBits ++ [t]).Nodup
    exact nodup_append.mpr ⟨h.nodup, nodup_singleton t, fun a ha b hb he => by
      rw [mem_singleton] at hb
      exact hmem (hb ▸ he ▸ ha)⟩
  · by_cases hxt : x = t
    · subst hxt
      exact ⟨v, update_self .., hok, update_self .., hnot⟩
    · have hx : x ∈ g.xTasksWaitingForBits := by
        rcases mem_append.mp hx with hx | hx
        · exact hx
        · exact absurd (mem_singleton.mp hx) hxt
      obtain ⟨v', hv', hok', hitem, hno⟩ := h.waiting x hx
      exact ⟨v', (update_of_ne hxt _ _).trans hv', hok', (update_of_ne hxt _ _).trans hitem, hno⟩

/-! ## Runs -/

/-- A task that has been released keeps its value until it runs. -/
structure Keeps (g g' : EventGroup Tid n) (t : Tid) (v : Wait n) : Prop where
  out : t ∉ g'.xTasksWaitingForBits
  waits : g'.waits t = some v
  item : g'.item t = g.item t

/-- One event: the invariant, and what it means to a task `t` that is out of the list. -/
def Good (g g' : EventGroup Tid n) (e : Event Tid n) : Prop :=
  Inv g' ∧ ∀ t v, g.waits t = some v → t ∉ g.xTasksWaitingForBits → (∀ b, e ≠ .finish t b) → Keeps g g' t v

omit dT in
theorem SetsBits.keeps {value : EventBits n} (hs : SetsBits g value g') {t : Tid} {v : Wait n}
    (hv : g.waits t = some v) (ht : t ∉ g.xTasksWaitingForBits) : Keeps g g' t v :=
  ⟨fun hm => ht (hs.sub t hm), hs.waits ▸ hv, hs.item_other t fun hm => absurd hm ht⟩

theorem Keeps.block {t x : Tid} {v w : Wait n} (h : Keeps g g' t v) (hx : g'.waits x = none) :
    Keeps g (block g' x w) t v := by
  have hne : t ≠ x := fun he => by
    have := h.waits
    rw [he, hx] at this
    cases this
  refine ⟨fun hm => ?_, (update_of_ne hne _ _).trans h.waits, (update_of_ne hne _ _).trans h.item⟩
  rcases mem_append.mp hm with hm | hm
  · exact h.out hm
  · exact hne (mem_singleton.mp hm)

/-- What `xEventGroupWaitBits` makes of the group. -/
theorem xEventGroupWaitBits_cases {t : Tid} {v : Wait n} {d : Nat} {r : EventGroup Tid n × Option (EventBits n)}
    (hgo : xEventGroupWaitBits g t v d = some r) : v.Ok ∧
      (r.1 = g ∨ r.1 = { g with uxEventBits := g.uxEventBits &&& ~~~v.uxBitsToWaitFor } ∨
        ¬v.MetBy g.uxEventBits ∧ r.1 = block g t v) := by
  obtain ⟨_, hplain, hgo⟩ := bind_eq_some_iff.mp hgo
  obtain ⟨_, hne, hgo⟩ := bind_eq_some_iff.mp hgo
  refine ⟨⟨of_configAssert hplain, of_configAssert hne⟩, ?_⟩
  by_cases hmet : prvTestWaitCondition g.uxEventBits v.uxBitsToWaitFor v.xWaitForAllBits = true
  · simp only [if_pos hmet] at hgo
    cases hgo
    dsimp only
    split
    · exact .inr (.inl rfl)
    · exact .inl rfl
  · simp only [if_neg hmet] at hgo
    split at hgo <;> cases hgo
    · exact .inl rfl
    · exact .inr (.inr ⟨fun hm => hmet (prvTestWaitCondition_iff.mpr hm), rfl⟩)

/-- What `xEventGroupSync` does after it has set the bits. -/
theorem xEventGroupSync_cases (h : Inv g) {t : Tid} {s b : EventBits n} {d : Nat}
    {r : EventGroup Tid n × Option (EventBits n)} (hgo : xEventGroupSync g t s b d = some r) :
    (⟨b, true, true⟩ : Wait n).Ok ∧ Plain s ∧ ∃ g1, SetsBits g (g.uxEventBits ||| s) g1 ∧
      ((g.uxEventBits ||| s) &&& b = b ∧
          r = ({ g1 with uxEventBits := g1.uxEventBits &&& ~~~b }, some (g.uxEventBits ||| s)) ∨
        (g.uxEventBits ||| s) &&& b ≠ b ∧ ¬(⟨b, true, true⟩ : Wait n).MetBy g1.uxEventBits ∧
          (d ≠ 0 ∧ r = (block g1 t ⟨b, true, true⟩, none) ∨ d = 0 ∧ r = (g1, some g1.uxEventBits))) := by
  obtain ⟨_, hplain, hgo⟩ := bind_eq_some_iff.mp hgo
  obtain ⟨_, hne, hgo⟩ := bind_eq_some_iff.mp hgo
  obtain ⟨g1, hg1, hgo⟩ := bind_eq_some_iff.mp hgo
  obtain ⟨_, hs, _⟩ := bind_eq_some_iff.mp hg1
  have hs : Plain s := of_configAssert hs
  obtain ⟨g2, hg2, hset⟩ := xEventGroupSetBits_spec h hs
  cases hg2.symm.trans hg1
  refine ⟨⟨of_configAssert hplain, of_configAssert hne⟩, hs, g1, hset, ?_⟩
  split at hgo
  · rename_i hall
    exact .inl ⟨hall, (Option.some.inj hgo).symm⟩
  · rename_i hnot
    refine .inr ⟨hnot, fun hmet => hnot ?_, ?_⟩
    · have hold : Met true b (g.uxEventBits ||| s) := Met.mono hmet fun i _ hi => ((hset.bits i).mp hi).1
      simpa [Met] using hold
    · split at hgo
      · rename_i hd
        exact .inl ⟨hd, (Option.some.inj hgo).symm⟩
      · rename_i hd
        exact .inr ⟨not_not.mp hd, (Option.some.inj hgo).symm⟩

theorem xEventGroupWaitBits_good (h : Inv g) {t : Tid} (ht : g.waits t = none) {v : Wait n}
    {d : Nat} {r : EventGroup Tid n × Option (EventBits n)} (hgo : xEventGroupWaitBits g t v d = some r) :
    Good g r.1 (.waitBits t v d) := by
  obtain ⟨hok, heq | heq | ⟨hnot, heq⟩⟩ := xEventGroupWaitBits_cases hgo <;> rw [heq]
  · exact ⟨h, fun x w hw hx _ => ⟨hx, hw, rfl⟩⟩
  · exact ⟨h.clear _, fun x w hw hx _ => ⟨hx, hw, rfl⟩⟩
  · exact ⟨h.block ht hok hnot, fun x w hw hx _ => Keeps.block ⟨hx, hw, rfl⟩ ht⟩

theorem xEventGroupSync_good (h : Inv g) {t : Tid} (ht : g.waits t = none) {s b : EventBits n}
    {d : Nat} {r : EventGroup Tid n × Option (EventBits n)} (hgo : xEventGroupSync g t s b d = some r) :
    Good g r.1 (.sync t s b d) := by
  obtain ⟨hok, hs, g1, hset, hr⟩ := xEventGroupSync_cases h hgo
  have hinv : Inv g1 := hset.inv h hs
  have ht1 : g1.waits t = none := hset.waits ▸ ht
  rcases hr with ⟨-, rfl⟩ | ⟨-, hnot, ⟨-, rfl⟩ | ⟨-, rfl⟩⟩
  · refine ⟨hinv.clear _, fun x w hw hx _ => ?_⟩
    have hk := hset.keeps hw hx
    exact ⟨hk.out, hk.waits, hk.item⟩
  · exact ⟨hinv.block ht1 hok hnot, fun x w hw hx _ => (hset.keeps hw hx).block ht1⟩
  · exact ⟨hinv, fun x w hw hx _ => hset.keeps hw hx⟩

theorem finish_good (h : Inv g) {t : Tid} (ht : t ∉ g.xTasksWaitingForBits) (v : Wait n)
    (normal : EventBits n) : Good g (finish normal g t v).1 (.finish t normal) := by
  set g1 : EventGroup Tid n :=
    { g with item := update g.item t normal, waits := update g.waits t none } with hg1
  have hne : ∀ x ∈ g.xTasksWaitingForBits, x ≠ t := fun x hx he => ht (he ▸ hx)
  have h1 : Inv g1 := h.shrink h.nodup (fun x hx =>
    ⟨hx, update_of_ne (hne x hx) _ _, update_of_ne (hne x hx) _ _⟩) fun _ hi => hi
  have hkeep : ∀ x w, g.waits x = some w → x ∉ g.xTasksWaitingForBits →
      (∀ b, Event.finish t normal ≠ .finish x b) → Keeps g g1 x w := by
    intro x w hw hx hno
    have hxt : x ≠ t := fun he => hno normal (by rw [he])
    exact ⟨hx, (update_of_ne hxt _ _).trans hw, update_of_ne hxt _ _⟩
  have hcl : ∀ b, Good g { g1 with uxEventBits := g1.uxEventBits &&& ~~~b } (.finish t normal) := fun b =>
    ⟨h1.clear b, fun x w hw hx hno => ⟨(hkeep x w hw hx hno).out, (hkeep x w hw hx hno).waits, (hkeep x w hw hx hno).item⟩⟩
  simp only [finish]
  split
  · simp only
    split
    · exact hcl _
    · exact ⟨h1, hkeep⟩
  · exact ⟨h1, hkeep⟩

theorem step_good (h : Inv g) {e : Event Tid n} {o : Option (Tid × EventBits n)}
    (hgo : step g e = some (g', o)) : Good g g' e := by
  cases e with
  | setBits b =>
    obtain ⟨g1, hg1, hgo⟩ := map_eq_some_iff.mp hgo
    cases hgo
    obtain ⟨_, hb, _⟩ := bind_eq_some_iff.mp hg1
    obtain ⟨g2, hg2, hset⟩ := xEventGroupSetBits_spec h (of_configAssert hb)
    cases hg2.symm.trans hg1
    exact ⟨hset.inv h (of_configAssert hb), fun t v hv ht _ => hset.keeps hv ht⟩
  | clearBits b =>
    obtain ⟨g1, hg1, hgo⟩ := map_eq_some_iff.mp hgo
    cases hgo
    obtain ⟨_, _, hg1⟩ := bind_eq_some_iff.mp hg1
    cases hg1
    exact ⟨h.clear b, fun t v hv ht _ => ⟨ht, hv, rfl⟩⟩
  | waitBits t v d =>
    simp only [step] at hgo
    split at hgo
    · rename_i ht
      obtain ⟨r, hr, hgo⟩ := map_eq_some_iff.mp hgo
      cases hgo
      exact xEventGroupWaitBits_good h ht hr
    · cases hgo
  | sync t s b d =>
    simp only [step] at hgo
    split at hgo
    · rename_i ht
      obtain ⟨r, hr, hgo⟩ := map_eq_some_iff.mp hgo
      cases hgo
      exact xEventGroupSync_good h ht hr
    · cases hgo
  | timeout t =>
    simp only [step] at hgo
    split at hgo <;> cases hgo
    refine ⟨h.shrink (h.nodup.erase t) (fun x hx => ⟨mem_of_mem_erase hx, rfl, rfl⟩) fun _ hi => hi, ?_⟩
    exact fun x v hv hx _ => ⟨fun hm => hx (mem_of_mem_erase hm), hv, rfl⟩
  | finish t normal =>
    simp only [step] at hgo
    split at hgo
    · cases hgo
    split at hgo
    · cases hgo
    rename_i v _ ht
    cases hgo
    exact finish_good h ht v normal

theorem run_inv (h : Inv g) {es : List (Event Tid n)} {rets : List (Tid × EventBits n)}
    (hgo : run g es = some (g', rets)) : Inv g' := by
  induction es generalizing g rets with
  | nil =>
    cases hgo
    exact h
  | cons e es ih =>
    obtain ⟨⟨g1, o⟩, ⟨g2, rets'⟩, hstep, hrun, ⟨⟩⟩ := Lib.Runs.of_bind_map hgo
    exact ih (step_good h hstep).1 hrun

theorem run_keeps (h : Inv g) {es : List (Event Tid n)} {rets : List (Tid × EventBits n)}
    (hgo : run g es = some (g', rets)) {t : Tid} {v : Wait n} (hv : g.waits t = some v)
    (ht : t ∉ g.xTasksWaitingForBits) (hno : ∀ b, .finish t b ∉ es) : Keeps g g' t v := by
  induction es generalizing g rets with
  | nil =>
    cases hgo
    exact ⟨ht, hv, rfl⟩
  | cons e es ih =>
    obtain ⟨⟨g1, o⟩, ⟨g2, rets'⟩, hstep, hrun, ⟨⟩⟩ := Lib.Runs.of_bind_map hgo
    obtain ⟨hinv, hkeep⟩ := step_good h hstep
    have h1 := hkeep t v hv ht fun b he => hno b (he ▸ mem_cons_self ..)
    have h2 := ih hinv hrun h1.waits h1.out fun b hb => hno b (mem_cons_of_mem _ hb)
    exact ⟨h2.out, h2.waits, h2.item.trans h1.item⟩

omit dT in
theorem xEventGroupCreate_inv (item : Tid → EventBits n) : Inv (xEventGroupCreate item) :=
  ⟨by simp [Plain, xEventGroupCreate], nodup_nil, fun t ht => by cases ht⟩

theorem finish_released {t : Tid} {value : EventBits n} (hv : Plain value)
    (hi : g.item t = released value) (v : Wait n) (normal : EventBits n) : (finish normal g t v).2 = value := by
  have hbit : (released value).getLsbD (n + 1) = true := by
    simp [released, unblockedDueToBitSet]
  have hne : g.item t &&& unblockedDueToBitSet n ≠ 0#_ := by
    rw [hi, Ne, unblockedDueToBitSet, and_twoPow_eq_zero, hbit]
    simp
  rw [finish]
  simp only [if_neg hne]
  rw [hi]
  refine BitVec.eq_of_getLsbD_eq fun i hlt => ?_
  rw [getLsbD_andNot, getLsbD_controlBytes]
  by_cases hn : n ≤ i
  · rw [plain_iff.mp hv i hn]
    simp [hn, hlt]
  · simp [hn, released, unblockedDueToBitSet, eventListItemValueInUse, BitVec.getLsbD_twoPow,
      show ¬ n + 1 = i by omega, show ¬ n + 7 = i by omega]

/-- **No task waits for bits that are set.** Setting bits releases exactly the tasks whose condition the new
value meets; each of them returns this value; the bits that are left are those that no released task clears; and
all that is the same for any order of the list. -/
theorem event_group_releases (item : Tid → EventBits n) {es : List (Event Tid n)} {g : EventGroup Tid n}
    {rets : List (Tid × EventBits n)} (hrun : run (xEventGroupCreate item) es = some (g, rets)) :
    (∀ t ∈ g.xTasksWaitingForBits, ∃ v, g.waits t = some v ∧ ¬ v.MetBy g.uxEventBits) ∧
      ∀ b, b &&& eventBitsControlBytes n = 0#_ → ∃ g', xEventGroupSetBits g b = some g' ∧
        (∀ t ∈ g.xTasksWaitingForBits, ∀ v, g.waits t = some v →
          (t ∉ g'.xTasksWaitingForBits ↔ v.MetBy (g.uxEventBits ||| b))) ∧
        (∀ t ∈ g'.xTasksWaitingForBits, t ∈ g.xTasksWaitingForBits) ∧
        (∀ t ∈ g.xTasksWaitingForBits, t ∉ g'.xTasksWaitingForBits → ∀ es' g'' rets', run g' es' = some (g'', rets') →
          (∀ d, .finish t d ∉ es') → ∀ d, ∃ h, step g'' (.finish t d) = some (h, some (t, g.uxEventBits ||| b))) ∧
        (∀ i, g'.uxEventBits.getLsbD i = true ↔ (g.uxEventBits ||| b).getLsbD i = true ∧
          ¬ ∃ t ∈ g.xTasksWaitingForBits, ∃ v, g.waits t = some v ∧ v.MetBy (g.uxEventBits ||| b) ∧
            v.xClearOnExit = true ∧ v.uxBitsToWaitFor.getLsbD i = true) ∧
        ∀ l, l.Perm g.xTasksWaitingForBits → ∃ h, xEventGroupSetBits { g with xTasksWaitingForBits := l } b = some h ∧
          h.uxEventBits = g'.uxEventBits ∧ h.item = g'.item ∧ h.xTasksWaitingForBits.Perm g'.xTasksWaitingForBits := by
  have h := run_inv (xEventGroupCreate_inv item) hrun
  refine ⟨fun t ht => ?_, fun b hb => ?_⟩
  · obtain ⟨v, hv, _, _, hnot⟩ := h.waiting t ht
    exact ⟨v, hv, hnot⟩
  obtain ⟨g', hg', hset⟩ := xEventGroupSetBits_spec h hb
  have hinv' := hset.inv h hb
  refine ⟨g', hg', fun t ht v hv => ?_, hset.sub, fun t ht hout es' g'' rets' hrun' hno d => ?_, hset.bits,
    fun l hl => ?_⟩
  · rw [hset.mem t v hv]
    simp [ht]
  · obtain ⟨v, hv, _, _, _⟩ := h.waiting t ht
    have hmet : v.MetBy (g.uxEventBits ||| b) := by
      by_contra hnot
      exact hout ((hset.mem t v hv).mpr ⟨ht, hnot⟩)
    have hk := run_keeps hinv' hrun' (hset.waits ▸ hv) hout hno
    have hitem := hk.item.trans (hset.item_met t ht v hv hmet)
    refine ⟨(finish d g'' t v).1, ?_⟩
    simp only [step, hk.waits, if_neg hk.out]
    rw [finish_released (h.plain.or hb) hitem]
  · have hl' : Inv { g with xTasksWaitingForBits := l } :=
      ⟨h.plain, hl.nodup_iff.mpr h.nodup, fun t ht => h.waiting t (hl.mem_iff.mp ht)⟩
    obtain ⟨k, hk, hset'⟩ := xEventGroupSetBits_spec hl' hb
    refine ⟨k, hk, ?_, ?_, ?_⟩
    · refine BitVec.eq_of_getLsbD_eq fun i _ => Bool.eq_iff_iff.mpr ?_
      rw [hset.bits, hset'.bits]
      simp only [hl.mem_iff]
    · funext t
      by_cases hmet : t ∈ g.xTasksWaitingForBits ∧ ∃ v, g.waits t = some v ∧ v.MetBy (g.uxEventBits ||| b)
      · obtain ⟨ht, v, hv, hm⟩ := hmet
        rw [hset.item_met t ht v hv hm, hset'.item_met t (hl.mem_iff.mpr ht) v hv hm]
      · rw [hset.item_other t fun ht v hv hm => hmet ⟨ht, v, hv, hm⟩,
          hset'.item_other t fun ht v hv hm => hmet ⟨hl.mem_iff.mp ht, v, hv, hm⟩]
    · refine (perm_ext_iff_of_nodup hset'.nodup hset.nodup).mpr fun t => ?_
      constructor
      · intro ht
        have hmem := hl.mem_iff.mp (hset'.sub t ht)
        obtain ⟨v, hv, _⟩ := h.waiting t hmem
        exact (hset.mem t v hv).mpr ⟨hmem, ((hset'.mem t v hv).mp ht).2⟩
      · intro ht
        have hmem := hset.sub t ht
        obtain ⟨v, hv, _⟩ := h.waiting t hmem
        exact (hset'.mem t v hv).mpr ⟨hl.mem_iff.mpr hmem, ((hset.mem t v hv).mp ht).2⟩

/-- Task 0 waits for bit 0 and clears it, task 1 for all of bits 0 and 1. -/
def twoWaits : List (Event (Fin 2) 24) :=
  [.waitBits 0 ⟨1, true, false⟩ 5, .waitBits 1 ⟨3, false, true⟩ 5, .setBits 2]

theorem event_group_releases_two :
    ∃ g rets, run (xEventGroupCreate fun _ => 1) twoWaits = some (g, rets) ∧ g.xTasksWaitingForBits = [0, 1] ∧
      (∀ t ∈ g.xTasksWaitingForBits, ∃ v, g.waits t = some v ∧ ¬ v.MetBy g.uxEventBits) ∧
      ∃ g', xEventGroupSetBits g 1 = some g' ∧ g'.xTasksWaitingForBits = [] ∧ g'.uxEventBits = 2 := by
  refine Lib.Runs.exists_pair_that (R := fun g _ => g.xTasksWaitingForBits = [0, 1] ∧
    (xEventGroupSetBits g 1).any (fun g' => g'.xTasksWaitingForBits = [] ∧ g'.uxEventBits = 2) = true)
    (by decide +kernel) fun g rets hrun ⟨hwaiting, hset⟩ => ⟨hwaiting, (event_group_releases _ hrun).1, ?_⟩
  exact Lib.Runs.exists_some_that hset fun _ _ hend => hend

end RtosKernel.FreeRTOS.EventGroups
