import RtosKernel.Lib.Runs
import RtosKernel.Zephyr.Timeout

/-! # The timeout queue is exact

As long as the ticks of a timeout fit into `dticks`, the list holds the pending timeouts in the order of their
times, first added first, and the stored ticks are the differences of these times from `curr_tick` on. -/
namespace RtosKernel.Zephyr.Timeout
open Lib.DeltaQueue
open Function (update update_self update_of_ne)
open List (map_cons mem_append mem_cons mem_cons_of_mem mem_cons_self nodup_cons)

variable {Id : Type} [dI : DecidableEq Id] {cfg : Config}
variable {x c time ticks : Int} {d : Id → Int} {p : Id × Int} {q b b' : List (Id × Int)} {t : Id}
  {l : List Id} {o : Option (Obs Id)} {s s' : State Id} {e : Nat} {ev : Event Id}

/-! ## Conversions that change nothing -/

theorem toDticks_of (h0 : 0 ≤ x) (h : x < 2 ^ (cfg.width - 1)) : cfg.toDticks x = x := by
  unfold Config.toDticks Config.width at *
  cases hc : cfg.timeout64 with
  | true =>
    simp only [hc, if_true] at h ⊢
    exact Int.bmod_eq_of_le (by omega) (by omega)
  | false =>
    simp only [hc, Bool.false_eq_true, if_false] at h ⊢
    exact Int.bmod_eq_of_le (by omega) (by omega)

theorem toTicks_of (h0 : 0 ≤ x) (h : x < 2 ^ (cfg.width - 1)) : cfg.toTicks x = x := by
  unfold Config.toTicks
  unfold Config.width at h
  cases hc : cfg.timeout64 with
  | true =>
    simp only [hc, if_true] at h ⊢
    exact Int.bmod_eq_of_le (by omega) (by omega)
  | false =>
    simp only [hc, Bool.false_eq_true, if_false] at h ⊢
    omega

theorem toInt_of (h0 : 0 ≤ x) (h : x < 2 ^ 31) : toInt x = x :=
  Int.bmod_eq_of_le (by omega) (by omega)

theorem toUint64_of (h0 : 0 ≤ x) (h : x < 2 ^ 64) : toUint64 x = x := Int.emod_eq_of_lt h0 h

/-! ## The loops -/

/-- What the loop of `z_add_timeout` does. -/
structure Inserted (d : Id → Int) (c : Int) (p : Id × Int) (q : List (Id × Int)) (r : (Id → Int) × List Id) : Prop where
  ids : r.2 = (insertBy Prod.snd p q).map Prod.fst
  deltas : Deltas r.1 c (insertBy Prod.snd p q)
  other : ∀ x, x ≠ p.1 → x ∉ q.map Prod.fst → r.1 x = d x

theorem insertLoop_spec (hd : Deltas d c q)
    (hp : d p.1 = p.2 - c) (hc : c ≤ p.2) (hnot : p.1 ∉ q.map Prod.fst) (hnodup : (q.map Prod.fst).Nodup)
    (hnear : p.2 - c < 2 ^ (cfg.width - 1)) (hq : ∀ y ∈ q, y.2 - c < 2 ^ (cfg.width - 1)) :
    Inserted d c p q (insertLoop cfg d p.1 (q.map Prod.fst)) := by
  induction q generalizing d c with
  | nil => exact ⟨rfl, ⟨hp, hc, trivial⟩, fun _ _ _ => rfl⟩
  | cons y q ih =>
    obtain ⟨hy, hle, hrest⟩ := hd
    obtain ⟨hne, hnotq⟩ : p.1 ≠ y.1 ∧ p.1 ∉ q.map Prod.fst := by simpa [not_or] using hnot
    obtain ⟨hyq, hnodupq⟩ := nodup_cons.mp hnodup
    have hynear := hq y (mem_cons_self ..)
    simp only [map_cons, insertLoop]
    by_cases hlt : p.2 < y.2
    · have hq' : insertBy Prod.snd p (y :: q) = p :: y :: q := insertBy_cons_of_lt hlt
      rw [if_pos (show d y.1 > d p.1 by omega)]
      have hdelta : cfg.toDticks (d y.1 - d p.1) = y.2 - p.2 := by
        rw [toDticks_of (by omega) (by omega)]
        omega
      rw [hdelta]
      refine ⟨by rw [hq']; rfl, hq' ▸ ⟨(update_of_ne hne _ _).trans hp, hc, ?_⟩, fun x _ hx => ?_⟩
      · exact Deltas.shift (c := c) ⟨hy, hle, hrest⟩ hnodup hlt.le
      · exact update_of_ne (fun he : x = y.1 => hx (he ▸ mem_cons_self ..)) _ _
    · have hq' : insertBy Prod.snd p (y :: q) = y :: insertBy Prod.snd p q := insertBy_cons_of_ge hlt
      rw [if_neg (show ¬ d y.1 > d p.1 by omega)]
      have hdelta : cfg.toDticks (d p.1 - d y.1) = p.2 - y.2 := by
        rw [toDticks_of (by omega) (by omega)]
        omega
      rw [hdelta]
      have hsame : ∀ z ∈ q, update d p.1 (p.2 - y.2) z.1 = d z.1 := fun z hz =>
        update_of_ne (fun he : z.1 = p.1 => hnotq (he ▸ List.mem_map_of_mem hz)) _ _
      have h := ih (d := update d p.1 (p.2 - y.2)) (c := y.2) (hrest.congr hsame) (update_self ..)
        (by omega) hnotq hnodupq (by omega) fun z hz => by
          have := hq z (mem_cons_of_mem _ hz)
          omega
      refine ⟨by rw [hq']; exact congrArg (y.1 :: ·) h.ids, hq' ▸ ⟨?_, hle, h.deltas⟩, fun x hx hxq => ?_⟩
      · exact ((h.other y.1 hne.symm hyq).trans (update_of_ne hne.symm _ _)).trans hy
      · have hx' : x ∉ q.map Prod.fst := fun hm => hxq (mem_cons_of_mem _ hm)
        exact (h.other x hx hx').trans (update_of_ne hx _ _)

theorem next_mem {n : Id} (h : next t l = some n) : n ∈ l := by
  induction l with
  | nil => cases h
  | cons x l ih =>
    unfold next at h
    split at h
    · exact mem_cons_of_mem _ (List.mem_of_mem_head? h)
    · exact mem_cons_of_mem _ (ih h)

/-- The ticks that `remove_timeout` leaves. -/
def removedDticks (cfg : Config) (d : Id → Int) (t : Id) (l : List Id) : Id → Int :=
  match next t l with
  | some n => update d n (cfg.toDticks (d n + d t))
  | none => d

theorem removedDticks_of_not_mem {x : Id} (hx : x ∉ l) : removedDticks cfg d t l x = d x := by
  unfold removedDticks
  cases hn : next t l with
  | none => rfl
  | some n => exact update_of_ne (fun he : x = n => hx (he ▸ next_mem hn)) _ _

theorem removedDticks_cons_of_ne {x : Id} (hx : x ≠ t) :
    removedDticks cfg d t (x :: l) = removedDticks cfg d t l := by
  simp [removedDticks, next, hx]

theorem filter_eq_self (h : t ∉ q.map Prod.fst) : q.filter (fun p => p.1 ≠ t) = q :=
  List.filter_eq_self.mpr fun p hp => by
    simp only [ne_eq, decide_not, Bool.not_eq_true', decide_eq_false_iff_not]
    exact fun he => h (he ▸ List.mem_map_of_mem hp)

theorem removedDticks_deltas (hd : Deltas d c q)
    (hnodup : (q.map Prod.fst).Nodup) (hq : ∀ y ∈ q, y.2 - c < 2 ^ (cfg.width - 1)) (ht : t ∈ q.map Prod.fst) :
    Deltas (removedDticks cfg d t (q.map Prod.fst)) c (q.filter fun p => p.1 ≠ t) := by
  induction q generalizing c with
  | nil => cases ht
  | cons y q ih =>
    obtain ⟨hy, hle, hrest⟩ := hd
    obtain ⟨hyq, hnodupq⟩ := nodup_cons.mp hnodup
    by_cases hyt : y.1 = t
    · -- the one behind it takes over its ticks
      subst hyt
      rw [List.filter_cons_of_neg (by simp), filter_eq_self hyq]
      cases q with
      | nil => trivial
      | cons z q =>
        have hz := hq z (by simp)
        have hdelta : cfg.toDticks (d z.1 + d y.1) = z.2 - c := by
          have h1 := hrest.1
          have h2 := hrest.2.1
          rw [toDticks_of (by omega) (by omega)]
          omega
        simp only [removedDticks, next, map_cons, if_true, List.head?_cons, hdelta]
        exact Deltas.shift hrest hnodupq (hle.trans hrest.2.1)
    · rw [List.filter_cons_of_pos (by simpa using hyt), map_cons, removedDticks_cons_of_ne hyt]
      have ht : t ∈ q.map Prod.fst := (mem_cons.mp ht).resolve_left fun he => hyt he.symm
      refine ⟨(removedDticks_of_not_mem hyq).trans hy, hle, ih hrest hnodupq (fun z hz => ?_) ht⟩
      have := hq z (mem_cons_of_mem _ hz)
      omega

theorem erase_ids (hnodup : (q.map Prod.fst).Nodup) :
    (q.map Prod.fst).erase t = (q.filter fun p => p.1 ≠ t).map Prod.fst := by
  rw [hnodup.erase_eq_filter, List.filter_map]
  congr 1
  refine List.filter_congr fun p _ => ?_
  by_cases hp : p.1 = t
  · simp [hp]
  · simp [hp]

theorem remLoop_spec {base : Int} (hd : Deltas d c q) (hb : base ≤ c)
    (hnodup : (q.map Prod.fst).Nodup) (hq : ∀ y ∈ q, y.2 - base < 2 ^ (cfg.width - 1)) (hp : p ∈ q) :
    remLoop cfg d p.1 (c - base) (q.map Prod.fst) = p.2 - base := by
  induction q generalizing c with
  | nil => cases hp
  | cons y q ih =>
    obtain ⟨hy, hle, hrest⟩ := hd
    obtain ⟨hyq, hnodupq⟩ := nodup_cons.mp hnodup
    have hsum : cfg.toTicks (c - base + d y.1) = y.2 - base := by
      have := hq y (mem_cons_self ..)
      rw [toTicks_of (by omega) (by omega)]
      omega
    simp only [map_cons, remLoop, hsum]
    by_cases hpy : p.1 = y.1
    · rw [if_pos hpy]
      rcases mem_cons.mp hp with rfl | hp
      · rfl
      · exact absurd (hpy ▸ List.mem_map_of_mem hp) hyq
    · rw [if_neg hpy]
      have hp : p ∈ q := (mem_cons.mp hp).resolve_left fun he => hpy (he ▸ rfl)
      exact ih hrest (hb.trans hle) hnodupq (fun z hz => hq z (mem_cons_of_mem _ hz)) hp

/-- The pending timeouts and their times, in the order they were added. A timeout is called at its
time; those added before it have later times, those added after it no earlier ones. -/
inductive Moves : List (Id × Int) → Obs Id → List (Id × Int) → Prop
  | added {b : List (Id × Int)} {t : Id} {time : Int} (hnew : t ∉ b.map Prod.fst) :
    Moves b (.added t time) (b ++ [(t, time)])
  | aborted {b : List (Id × Int)} {t : Id} (hold : t ∈ b.map Prod.fst) :
    Moves b (.aborted t) (b.filter fun p => p.1 ≠ t)
  | called {l r : List (Id × Int)} {t : Id} {time : Int} (hl : ∀ p ∈ l, time < p.2) (hr : ∀ p ∈ r, time ≤ p.2) :
    Moves (l ++ (t, time) :: r) (.called t time) (l ++ r)

theorem Moves.mem_of_called {o : Obs Id} (h : Moves b o b')
    (ho : o = .called t time) : (t, time) ∈ b := by
  cases h with
  | added _ => cases ho
  | aborted _ => cases ho
  | called _ _ =>
    cases ho
    simp

theorem Moves.eq_of_added {o : Obs Id} (h : Moves b o b')
    (ho : o = .added t time) : b' = b ++ [(t, time)] := by
  cases h with
  | added _ =>
    cases ho
    rfl
  | aborted _ => cases ho
  | called _ _ => cases ho

def Accepts (b : List (Id × Int)) : List (Obs Id) → List (Id × Int) → Prop
  | [], b' => b' = b
  | o :: os, b' => ∃ b1, Moves b o b1 ∧ Accepts b1 os b'

def callTicks (os : List (Obs Id)) : List Int := os.filterMap fun o => match o with
  | .called _ c => some c
  | _ => none

/-- What is seen is what the queue is for: every timeout is called once, at its time, in order, and
outside of an announcement nothing that is due is left. -/
structure Exact (s : State Id) (os : List (Obs Id)) : Prop where
  accepts : ∃ b, Accepts [] os b ∧ (∀ t, t ∈ s.timeoutList ↔ t ∈ b.map Prod.fst) ∧ (∀ p ∈ b, s.currTick ≤ p.2) ∧
    (s.announcing = false → ∀ p ∈ b, s.currTick < p.2)
  ordered : (callTicks os).Pairwise (· ≤ ·)

/-! ## The invariant -/

/-- The list holds the timeouts `q`, in this order. -/
structure Holds (cfg : Config) (s : State Id) (q : List (Id × Int)) : Prop where
  ids : s.timeoutList = q.map Prod.fst
  nodup : (q.map Prod.fst).Nodup
  deltas : Deltas s.dticks s.currTick q
  near : ∀ p ∈ q, p.2 - s.currTick < 2 ^ (cfg.width - 1)
  tick_nonneg : 0 ≤ s.currTick
  remaining_nonneg : 0 ≤ s.announceRemaining
  remaining_lt : s.announceRemaining < 2 ^ 31
  fits : s.currTick + s.announceRemaining < 2 ^ 64
  idle : s.announcing = false → s.announceRemaining = 0 ∧ ∀ p ∈ q, s.currTick < p.2

/-- The list holds the timeouts that were added in the order `b`. -/
def Tracks (cfg : Config) (s : State Id) (b : List (Id × Int)) : Prop :=
  ∃ q, Holds cfg s q ∧ Stable Prod.snd q b

/-- The ticks fit: a timeout that is added into the signed `dticks`, and the ticks announced into
`curr_tick`. -/
def Fits (cfg : Config) (s : State Id) : Event Id → Prop
  | .add _ ticks e => ticks = cfg.ticksForever ∨
    if 0 ≤ ticks then (s.announceRemaining = 0 → e < 2 ^ 31) ∧ ticks + 1 + sinceAnnounced s e < 2 ^ (cfg.width - 1)
    else s.currTick ≤ -2 - ticks + 2 ^ 63
  | .announce ticks => s.currTick + ticks < 2 ^ 64
  | _ => True

def RunFits (cfg : Config) (s : State Id) : List (Event Id) → Prop
  | [] => True
  | ev :: evs => Fits cfg s ev ∧ ∀ r, step cfg s ev = some r → RunFits cfg r.1 evs

instance (s : State Id) (ev : Event Id) : Decidable (Fits cfg s ev) := by
  cases ev <;> dsimp only [Fits] <;> infer_instance

instance decidableRunFits : (s : State Id) → (evs : List (Event Id)) → Decidable (RunFits cfg s evs)
  | _, [] => isTrue trivial
  | s, ev :: evs =>
    match h : step cfg s ev with
    | none => decidable_of_iff (Fits cfg s ev) (by simp [RunFits, h])
    | some r =>
      letI := decidableRunFits r.1 evs
      decidable_of_iff (Fits cfg s ev ∧ RunFits cfg r.1 evs) (by simp [RunFits, h])

omit dI in
theorem elapsed_eq (h : s.announceRemaining = 0 → e < 2 ^ 31) : elapsed s e = sinceAnnounced s e := by
  unfold elapsed sinceAnnounced
  split
  · rename_i h0
    exact toInt_of (by omega) (by have := h h0; omega)
  · rfl

omit dI in
theorem sinceAnnounced_nonneg (s : State Id) (e : Nat) : 0 ≤ sinceAnnounced s e := by
  unfold sinceAnnounced
  split <;> omega

theorem tickAbs_of (h64 : cfg.timeout64 = true) (h : -2 ^ 63 ≤ ticks) (h' : ticks ≤ 2 ^ 63 - 2) :
    cfg.tickAbs ticks = -2 - ticks := by
  have hforever : cfg.ticksForever = -1 := by simp [Config.ticksForever, Config.toTicks, h64]
  rw [Config.tickAbs, hforever, Config.toTicks, if_pos h64]
  exact (Int.bmod_eq_of_le (by omega) (by omega)).trans (by omega)

omit dI in
theorem initialDticks_eq (hc : 0 ≤ s.currTick)
    (hticks : cfg.IsTicks ticks) (hne : ticks ≠ cfg.ticksForever) (hfits : Fits cfg s (.add t ticks e)) :
    initialDticks cfg s ticks e = expiry s ticks e - s.currTick ∧ s.currTick < expiry s ticks e ∧
      expiry s ticks e - s.currTick < 2 ^ (cfg.width - 1) := by
  have hfits := hfits.resolve_left hne
  have hsince := sinceAnnounced_nonneg s e
  by_cases h0 : 0 ≤ ticks
  · -- a relative time
    rw [if_pos h0] at hfits
    have hrel : ¬ (cfg.timeout64 = true ∧ 0 ≤ cfg.tickAbs ticks) := by
      rintro ⟨h64, habs⟩
      have hlt := hfits.2
      simp only [Config.width, h64, if_true] at hlt
      rw [tickAbs_of h64 (by omega) (by omega)] at habs
      omega
    have hexp : expiry s ticks e = s.currTick + ticks + 1 + sinceAnnounced s e := if_pos h0
    rw [initialDticks, if_neg hrel, elapsed_eq hfits.1, toDticks_of (by omega) hfits.2, hexp]
    refine ⟨by omega, by omega, ?_⟩
    omega
  · rw [if_neg h0] at hfits
    -- only 64-bit ticks can be negative
    have h64 : cfg.timeout64 = true := by
      by_contra hno
      rw [Config.IsTicks, Config.toTicks, if_neg hno] at hticks
      omega
    have hforever : cfg.ticksForever = -1 := by simp [Config.ticksForever, Config.toTicks, h64]
    have hlow : -2 ^ 63 ≤ ticks := by
      rw [Config.IsTicks, Config.toTicks, if_pos h64] at hticks
      have := Int.le_bmod (x := ticks) (m := 2 ^ 64) (by decide)
      omega
    have habs := tickAbs_of h64 hlow (by omega)
    have hdiff : cfg.toTicks (-2 - ticks - s.currTick) = -2 - ticks - s.currTick := by
      rw [Config.toTicks, if_pos h64]
      exact Int.bmod_eq_of_le (by omega) (by omega)
    have hexp : expiry s ticks e = max (-2 - ticks) (s.currTick + 1) := if_neg h0
    rw [initialDticks, habs, if_pos ⟨h64, by omega⟩, hdiff, hexp]
    have hwidth : cfg.width = 64 := by simp [Config.width, h64]
    rw [hwidth]
    omega

/-! ## Steps -/

theorem Holds.add (h : Holds cfg s q) (ht : t ∉ s.timeoutList)
    {d : Int} (hd : d = time - s.currTick) (hlt : s.currTick < time)
    (hnear : time - s.currTick < 2 ^ (cfg.width - 1)) :
    Holds cfg { s with
      dticks := (insertLoop cfg (update s.dticks t d) t s.timeoutList).1
      timeoutList := (insertLoop cfg (update s.dticks t d) t s.timeoutList).2 }
      (insertBy Prod.snd (t, time) q) := by
  have hnot : t ∉ q.map Prod.fst := h.ids ▸ ht
  have hdeltas : Deltas (update s.dticks t d) s.currTick q := h.deltas.congr fun p hp =>
    update_of_ne (fun he : p.1 = t => hnot (he ▸ List.mem_map_of_mem hp)) _ _
  have hins := insertLoop_spec (p := (t, time)) hdeltas ((update_self ..).trans hd) hlt.le hnot h.nodup hnear h.near
  rw [← h.ids] at hins
  have hmem : ∀ p ∈ insertBy Prod.snd (t, time) q, p = (t, time) ∨ p ∈ q := fun p hp => mem_insertBy.mp hp
  refine ⟨hins.ids, ?_, hins.deltas, fun p hp => ?_, h.tick_nonneg, h.remaining_nonneg, h.remaining_lt, h.fits,
    fun hidle => ⟨(h.idle hidle).1, fun p hp => ?_⟩⟩
  · have hperm : (insertBy Prod.snd (t, time) q).Perm ((t, time) :: q) := List.perm_orderedInsert _ _ _
    exact (hperm.map Prod.fst).nodup_iff.mpr (nodup_cons.mpr ⟨hnot, h.nodup⟩)
  · rcases hmem p hp with rfl | hp
    · exact hnear
    · exact h.near p hp
  · rcases hmem p hp with rfl | hp
    · exact hlt
    · exact (h.idle hidle).2 p hp

theorem removeTimeout_eq (s : State Id) (t : Id) : removeTimeout cfg s t =
    { s with dticks := removedDticks cfg s.dticks t s.timeoutList, timeoutList := s.timeoutList.erase t } := by
  rfl

theorem Holds.remove (h : Holds cfg s q) (ht : t ∈ s.timeoutList) :
    Holds cfg (removeTimeout cfg s t) (q.filter fun p => p.1 ≠ t) := by
  rw [removeTimeout_eq]
  have hmem : ∀ p ∈ q.filter (fun p => p.1 ≠ t), p ∈ q := fun p hp => List.mem_of_mem_filter hp
  refine ⟨?_, ?_, ?_, fun p hp => h.near p (hmem p hp), h.tick_nonneg, h.remaining_nonneg, h.remaining_lt, h.fits,
    fun hidle => ⟨(h.idle hidle).1, fun p hp => (h.idle hidle).2 p (hmem p hp)⟩⟩
  · rw [h.ids, erase_ids h.nodup]
  · exact (List.filter_sublist.map Prod.fst).nodup h.nodup
  · rw [h.ids]
    exact removedDticks_deltas h.deltas h.nodup h.near (h.ids ▸ ht)

theorem Holds.turn (h : Holds cfg { s with announcing := true } q) :
    (∃ t time q', q = (t, time) :: q' ∧ (announceLoop cfg s).2 = some t ∧ (announceLoop cfg s).1.currTick = time ∧
      s.currTick ≤ time ∧ Holds cfg (announceLoop cfg s).1 q') ∨
    (announceLoop cfg s).2 = none ∧ s.currTick ≤ (announceLoop cfg s).1.currTick ∧ Holds cfg (announceLoop cfg s).1 q := by
  have hids : s.timeoutList = q.map Prod.fst := h.ids
  have hdeltas : Deltas s.dticks s.currTick q := h.deltas
  have htick : 0 ≤ s.currTick := h.tick_nonneg
  have hrem : 0 ≤ s.announceRemaining := h.remaining_nonneg
  have hrem' : s.announceRemaining < 2 ^ 31 := h.remaining_lt
  have hfits : s.currTick + s.announceRemaining < 2 ^ 64 := h.fits
  have hsum : toUint64 (s.currTick + s.announceRemaining) = s.currTick + s.announceRemaining :=
    toUint64_of (by omega) hfits
  cases q with
  | nil =>
    right
    simp only [announceLoop, hids, List.map_nil, hsum]
    refine ⟨trivial, by omega, rfl, h.nodup, trivial, fun p hp => (by cases hp), ?_, le_rfl, ?_, ?_,
      fun _ => ⟨rfl, fun p hp => (by cases hp)⟩⟩
    · exact Int.add_nonneg htick hrem
    · exact Int.pow_pos (by decide)
    · exact (Int.add_zero _).trans_lt hfits
  | cons p q =>
    have hlist : s.timeoutList = p.1 :: q.map Prod.fst := hids
    have hp : s.dticks p.1 = p.2 - s.currTick := hdeltas.1
    have hle : s.currTick ≤ p.2 := hdeltas.2.1
    have hothers : ∀ x ∈ q, p.2 ≤ x.2 := hdeltas.2.2.le
    simp only [announceLoop, hlist]
    by_cases hdue : s.dticks p.1 ≤ s.announceRemaining
    · left
      have hdt : toInt (s.dticks p.1) = p.2 - s.currTick := (toInt_of (by omega) (by omega)).trans hp
      have hnow : toUint64 (s.currTick + (p.2 - s.currTick)) = p.2 := (toUint64_of (by omega) (by omega)).trans (by omega)
      have hleft : toInt (s.announceRemaining - (p.2 - s.currTick)) = s.announceRemaining - (p.2 - s.currTick) :=
        toInt_of (by omega) (by omega)
      simp only [if_pos hdue, hdt, hnow, hleft]
      refine ⟨p.1, p.2, q, rfl, rfl, rfl, hle, ?_⟩
      set s1 : State Id := { s with
        currTick := p.2
        announceRemaining := s.announceRemaining - (p.2 - s.currTick)
        dticks := update s.dticks p.1 0
        announcing := true
        timeoutList := p.1 :: q.map Prod.fst } with hs1
      have h1 : Holds cfg s1 (p :: q) := by
        have hshift := Deltas.shift (e := p.2) hdeltas h.nodup le_rfl
        rw [sub_self] at hshift
        refine ⟨rfl, h.nodup, hshift, fun x hx => ?_, by dsimp only [s1]; omega, by dsimp only [s1]; omega,
          by dsimp only [s1]; omega, by dsimp only [s1]; omega, fun hidle => by cases hidle⟩
        have hnear : x.2 - s.currTick < 2 ^ (cfg.width - 1) := h.near x hx
        show x.2 - p.2 < 2 ^ (cfg.width - 1)
        omega
      have hrest := h1.remove (t := p.1) (mem_cons_self ..)
      rw [List.filter_cons_of_neg (by simp), filter_eq_self (nodup_cons.mp h.nodup).1] at hrest
      exact hrest
    · right
      have hdelta : cfg.toDticks (s.dticks p.1 - s.announceRemaining) = p.2 - (s.currTick + s.announceRemaining) := by
        have hnear : p.2 - s.currTick < 2 ^ (cfg.width - 1) := h.near p (mem_cons_self ..)
        rw [toDticks_of (by omega) (by omega)]
        omega
      simp only [if_neg hdue, hsum, hdelta]
      refine ⟨trivial, by omega, rfl, h.nodup, Deltas.shift hdeltas h.nodup (by omega), fun x hx => ?_, by dsimp only; omega,
        le_rfl, by dsimp only; decide, by dsimp only; omega, fun _ => ⟨rfl, fun x hx => ?_⟩⟩
      · have hnear : x.2 - s.currTick < 2 ^ (cfg.width - 1) := h.near x hx
        dsimp only
        omega
      · dsimp only
        rcases mem_cons.mp hx with rfl | hx
        · omega
        · have := hothers x hx
          omega

/-- What a step does to a queue that holds `b`: at most one move, and the time does not go back. -/
def Follows (cfg : Config) (s : State Id) (b : List (Id × Int)) (s' : State Id) (o : Option (Obs Id)) : Prop :=
  ∃ b', Accepts b o.toList b' ∧ Tracks cfg s' b' ∧ s.currTick ≤ s'.currTick ∧ ∀ c ∈ callTicks o.toList, c = s'.currTick

theorem Holds.turn_follows (h : Holds cfg { s with announcing := true } q)
    (hb : Stable Prod.snd q b) : Follows cfg s b (announceLoop cfg s).1
      ((announceLoop cfg s).2.map fun t => .called t (announceLoop cfg s).1.currTick) := by
  rcases h.turn with ⟨t, time, q', rfl, hcall, htime, hle, hq'⟩ | ⟨hcall, hle, hq⟩
  · obtain ⟨l, r, rfl, hl, hr, hlr⟩ := hb.head
    rw [hcall, htime]
    refine ⟨l ++ r, ⟨l ++ r, .called hl hr, rfl⟩, ⟨q', hq', hlr⟩, by omega, fun c hc => ?_⟩
    simpa [callTicks, htime] using hc
  · rw [hcall]
    exact ⟨b, rfl, ⟨q, hq, hb⟩, hle, fun c hc => by cases hc⟩

omit dI in
theorem Tracks.mem (h : Tracks cfg s b) (t : Id) : t ∈ s.timeoutList ↔ t ∈ b.map Prod.fst := by
  obtain ⟨q, hq, hb⟩ := h
  rw [hq.ids, List.mem_map, List.mem_map]
  simp only [hb.mem]

theorem zAddTimeout_cases (h : zAddTimeout cfg s t ticks e = some s') :
    (ticks = cfg.ticksForever ∧ s' = s) ∨ (ticks ≠ cfg.ticksForever ∧ t ∉ s.timeoutList ∧
      s' = { s with
        dticks := (insertLoop cfg (update s.dticks t (initialDticks cfg s ticks e)) t s.timeoutList).1
        timeoutList := (insertLoop cfg (update s.dticks t (initialDticks cfg s ticks e)) t s.timeoutList).2 }) := by
  unfold zAddTimeout at h
  split at h
  · rename_i hforever
    cases h
    exact .inl ⟨hforever, rfl⟩
  · rename_i hforever
    split at h
    · cases h
    rename_i hnot
    cases h
    exact .inr ⟨hforever, hnot, rfl⟩

theorem Tracks.step (h : Tracks cfg s b) (hfits : Fits cfg s ev) (hgo : step cfg s ev = some (s', o)) : Follows cfg s b s' o := by
  have hmem := h.mem
  obtain ⟨q, hq, hb⟩ := id h
  cases ev with
  | add t ticks e =>
    simp only [Timeout.step] at hgo
    split at hgo
    · rename_i hticks
      obtain ⟨s1, hadd, heq⟩ := Option.map_eq_some_iff.mp hgo
      cases heq
      rcases zAddTimeout_cases hadd with ⟨hforever, rfl⟩ | ⟨hforever, hnot, rfl⟩
      · rw [if_pos hforever]
        exact ⟨b, rfl, h, le_rfl, fun c hc => by cases hc⟩
      · rw [if_neg hforever]
        obtain ⟨hd, hlt, hnear⟩ := initialDticks_eq hq.tick_nonneg hticks.1 hforever hfits
        refine ⟨b ++ [(t, expiry s ticks e)], ⟨_, .added fun hm => hnot ((hmem t).mpr hm), rfl⟩,
          ⟨_, hq.add hnot hd hlt hnear, hb.insert _⟩, le_rfl, fun c hc => ?_⟩
        simp [callTicks] at hc
    · cases hgo
  | abort t =>
    simp only [Timeout.step, zAbortTimeout] at hgo
    by_cases ht : t ∈ s.timeoutList
    · simp only [if_pos ht] at hgo
      cases hgo
      refine ⟨b.filter fun p => p.1 ≠ t, ⟨_, .aborted ((hmem t).mp ht), rfl⟩, ⟨_, hq.remove ht, hb.filter _⟩,
        le_rfl, fun c hc => ?_⟩
      simp [callTicks] at hc
    · simp only [if_neg ht] at hgo
      cases hgo
      exact ⟨b, rfl, h, le_rfl, fun c hc => by cases hc⟩
  | announce ticks =>
    simp only [Timeout.step] at hgo
    split at hgo
    · rename_i hcan
      cases hgo
      have hstart : Holds cfg { s with announceRemaining := (ticks : Int), announcing := true } q :=
        ⟨hq.ids, hq.nodup, hq.deltas, hq.near, hq.tick_nonneg, Int.natCast_nonneg _,
          (by have := hcan.2; dsimp only; omega), hfits, fun hidle => (by cases hidle)⟩
      exact Holds.turn_follows (s := { s with announceRemaining := (ticks : Int) }) hstart hb
    · cases hgo
  | returned =>
    simp only [Timeout.step] at hgo
    split at hgo
    · rename_i hcan
      cases hgo
      refine Holds.turn_follows ?_ hb
      rw [← hcan]
      exact hq
    · cases hgo

theorem accepts_append {b1 : List (Id × Int)} {os os' : List (Obs Id)} (h : Accepts b os b1)
    (h' : Accepts b1 os' b') : Accepts b (os ++ os') b' := by
  induction os generalizing b with
  | nil =>
    cases h
    exact h'
  | cons o os ih =>
    obtain ⟨b2, hmove, hrest⟩ := h
    exact ⟨b2, hmove, ih hrest⟩

theorem Tracks.run (h : Tracks cfg s b) {evs : List (Event Id)}
    (hfits : RunFits cfg s evs) {os : List (Obs Id)} (hgo : run cfg s evs = some (s', os)) :
    ∃ b', Accepts b os b' ∧ Tracks cfg s' b' ∧ s.currTick ≤ s'.currTick ∧ (∀ c ∈ callTicks os, s.currTick ≤ c) ∧
      (callTicks os).Pairwise (· ≤ ·) := by
  induction evs generalizing s b os with
  | nil =>
    cases hgo
    exact ⟨b, rfl, h, le_rfl, fun c hc => (by cases hc), List.Pairwise.nil⟩
  | cons ev evs ih =>
    obtain ⟨⟨s1, o⟩, ⟨s2, os'⟩, hstep, hrun, ⟨⟩⟩ := Lib.Runs.of_bind_map hgo
    obtain ⟨b1, hacc, htracks, hle, hcalls⟩ := h.step hfits.1 hstep
    obtain ⟨b2, hacc2, htracks2, hle2, hcalls2, hsorted⟩ := ih htracks (hfits.2 _ hstep) hrun
    have happend : callTicks (o.toList ++ os') = callTicks o.toList ++ callTicks os' := List.filterMap_append ..
    refine ⟨b2, accepts_append hacc hacc2, htracks2, hle.trans hle2, ?_, ?_⟩
    · intro c hc
      rw [happend] at hc
      rcases mem_append.mp hc with hc | hc
      · exact (hcalls c hc).symm ▸ hle
      · exact hle.trans (hcalls2 c hc)
    · rw [happend]
      refine List.pairwise_append.mpr ⟨?_, hsorted, fun x hx y hy => (hcalls x hx).symm ▸ hcalls2 y hy⟩
      cases o with
      | none => exact List.Pairwise.nil
      | some o => cases o <;> simp [callTicks]

omit dI in
theorem initial_tracks (dticks : Id → Int) : Tracks cfg (initial dticks) [] := by
  refine ⟨[], ⟨rfl, List.nodup_nil, trivial, fun p hp => (by cases hp), le_rfl, le_rfl, ?_, ?_,
    fun _ => ⟨rfl, fun p hp => (by cases hp)⟩⟩, .nil⟩
  · exact Int.pow_pos (by decide)
  · exact Int.pow_pos (by decide)

theorem Holds.expires (h : Holds cfg s q) (hp : p ∈ q) (e : Nat) :
    zTimeoutExpires cfg s e p.1 = cfg.toTicks (s.currTick + cfg.toTicks (p.2 - s.currTick - elapsed s e)) := by
  have hmem : p.1 ∈ s.timeoutList := h.ids ▸ List.mem_map_of_mem hp
  have hrem := remLoop_spec h.deltas le_rfl h.nodup h.near hp
  rw [sub_self, ← h.ids] at hrem
  rw [zTimeoutExpires, timeoutRem, if_neg (not_not.mpr hmem), hrem]

theorem Holds.edit (h : Holds cfg s q) {x : Id}
    (hev : (∃ ticks e, ev = .add x ticks e) ∨ ev = .abort x) (hfits : Fits cfg s ev)
    (hgo : step cfg s ev = some (s', o)) : ∃ q', Holds cfg s' q' ∧ (∀ p ∈ q, p.1 ≠ x → p ∈ q') ∧
      s'.currTick = s.currTick ∧ s'.announceRemaining = s.announceRemaining := by
  rcases hev with ⟨ticks, e, rfl⟩ | rfl
  · simp only [Timeout.step] at hgo
    split at hgo
    · rename_i hticks
      obtain ⟨s1, hadd, heq⟩ := Option.map_eq_some_iff.mp hgo
      cases heq
      rcases zAddTimeout_cases hadd with ⟨hforever, rfl⟩ | ⟨hforever, hnot, rfl⟩
      · exact ⟨q, h, fun p hp _ => hp, rfl, rfl⟩
      · obtain ⟨hd, hlt, hnear⟩ := initialDticks_eq h.tick_nonneg hticks.1 hforever hfits
        exact ⟨_, h.add hnot hd hlt hnear, fun p hp _ => mem_insertBy.mpr (.inr hp), rfl, rfl⟩
    · cases hgo
  · simp only [Timeout.step, zAbortTimeout] at hgo
    by_cases ht : x ∈ s.timeoutList
    · simp only [if_pos ht] at hgo
      cases hgo
      refine ⟨_, h.remove ht, fun p hp hne => List.mem_filter.mpr ⟨hp, ?_⟩, rfl, rfl⟩
      simpa using hne
    · simp only [if_neg ht] at hgo
      cases hgo
      exact ⟨q, h, fun p hp _ => hp, rfl, rfl⟩

theorem Tracks.expires_kept (h : Tracks cfg s b) {x : Id}
    (hev : (∃ ticks e, ev = .add x ticks e) ∨ ev = .abort x) (hfits : Fits cfg s ev)
    (hgo : Timeout.step cfg s ev = some (s', o)) (ht : t ∈ s.timeoutList) (hne : t ≠ x) (e : Nat) :
    zTimeoutExpires cfg s' e t = zTimeoutExpires cfg s e t := by
  obtain ⟨q, hq, _⟩ := h
  obtain ⟨q', hq', hsub, htick, hrem⟩ := hq.edit hev hfits hgo
  rw [hq.ids] at ht
  obtain ⟨p, hp, rfl⟩ := List.mem_map.mp ht
  rw [hq.expires hp, hq'.expires (hsub p hp hne), htick]
  simp only [elapsed, hrem]

/-! ## What a caller needs -/

theorem Tracks.added (h : Tracks cfg s b)
    (hticks : cfg.IsTicks ticks) (hfits : Fits cfg s (.add t ticks e)) (hgo : zAddTimeout cfg s t ticks e = some s') :
    s'.currTick = s.currTick ∧ s'.announcing = s.announcing ∧
      (ticks = cfg.ticksForever ∧ s' = s ∨
        t ∉ b.map Prod.fst ∧ Tracks cfg s' (b ++ [(t, expiry s ticks e)])) := by
  have hmem := h.mem
  obtain ⟨q, hq, hb⟩ := h
  rcases zAddTimeout_cases hgo with ⟨hforever, rfl⟩ | ⟨hforever, hnot, rfl⟩
  · exact ⟨rfl, rfl, .inl ⟨hforever, rfl⟩⟩
  · obtain ⟨hd, hlt, hnear⟩ := initialDticks_eq hq.tick_nonneg hticks hforever hfits
    exact ⟨rfl, rfl, .inr ⟨fun hm => hnot ((hmem t).mpr hm), _, hq.add hnot hd hlt hnear, hb.insert _⟩⟩

theorem Tracks.aborted (h : Tracks cfg s b) (t : Id) :
    (zAbortTimeout cfg s t).1.currTick = s.currTick ∧ (zAbortTimeout cfg s t).1.announcing = s.announcing ∧
      (zAbortTimeout cfg s t).1.announceRemaining = s.announceRemaining ∧
      Tracks cfg (zAbortTimeout cfg s t).1 (b.filter fun p => p.1 ≠ t) := by
  unfold zAbortTimeout
  split
  · rename_i ht
    obtain ⟨q, hq, hb⟩ := h
    exact ⟨rfl, rfl, rfl, _, hq.remove ht, hb.filter _⟩
  · rename_i ht
    rw [filter_eq_self fun hm => ht ((h.mem t).mpr hm)]
    exact ⟨rfl, rfl, rfl, h⟩

theorem announceLoop_obs (s : State Id) :
    (announceLoop cfg s).2.map (fun t => Obs.called t (announceLoop cfg s).1.currTick) = none ∨
      ∃ t, (announceLoop cfg s).2.map (fun t => Obs.called t (announceLoop cfg s).1.currTick) =
        some (.called t (announceLoop cfg s).1.currTick) ∧ (announceLoop cfg s).1.announcing = true := by
  unfold announceLoop
  split
  · exact .inl rfl
  · split
    · exact .inr ⟨_, rfl, rfl⟩
    · exact .inl rfl

theorem Tracks.announced (h : Tracks cfg s b)
    (hev : (∃ ticks, ev = .announce ticks) ∨ ev = .returned) (hfits : Fits cfg s ev)
    (hgo : Timeout.step cfg s ev = some (s', o)) :
    (o = none ∧ Tracks cfg s' b) ∨
      ∃ t b', o = some (.called t s'.currTick) ∧ (t, s'.currTick) ∈ b ∧ Tracks cfg s' b' ∧ s'.announcing = true ∧
        (∀ p ∈ b', p ∈ b) ∧ ∀ p ∈ b, p.1 ≠ t → p ∈ b' := by
  obtain ⟨b', hacc, htracks, -, hcalls⟩ := h.step hfits hgo
  have hobs : o = none ∨ ∃ t, o = some (.called t s'.currTick) ∧ s'.announcing = true := by
    rcases hev with ⟨ticks, rfl⟩ | rfl
    all_goals
      simp only [Timeout.step] at hgo
      split at hgo <;> cases hgo
      exact announceLoop_obs _
  rcases hobs with rfl | ⟨t, rfl, hann⟩
  · cases hacc
    exact .inl ⟨rfl, htracks⟩
  · obtain ⟨b₁, hmove, rfl⟩ := hacc
    refine .inr ⟨t, b', rfl, hmove.mem_of_called rfl, htracks, hann, ?_⟩
    cases hmove with
    | called _ _ =>
      constructor
      · intro p hp
        simp only [mem_append, mem_cons] at hp ⊢
        rcases hp with hp | hp
        · exact .inl hp
        · exact .inr (.inr hp)
      · intro p hp hne
        simp only [mem_append, mem_cons] at hp ⊢
        rcases hp with hp | rfl | hp
        · exact .inl hp
        · exact absurd rfl hne
        · exact .inr hp

/-- **The timeout queue is exact while the ticks fit.** Every timeout is called once, when `curr_tick` is the
time it was added for, in the order of the times, first added first; between announcements nothing that is due
is pending; and adding or aborting a timeout leaves `z_timeout_expires` of all others as it was. -/
theorem timeouts_exact_while_fitting (dticks : Id → Int) {evs : List (Event Id)} {s : State Id} {os : List (Obs Id)}
    (hrun : run cfg (initial dticks) evs = some (s, os)) (hfits : RunFits cfg (initial dticks) evs) :
    Exact s os ∧ ∀ x ev, ((∃ ticks e, ev = .add x ticks e) ∨ ev = .abort x) → Fits cfg s ev →
      ∀ s' o, step cfg s ev = some (s', o) → ∀ t ∈ s.timeoutList, t ≠ x → ∀ e,
        zTimeoutExpires cfg s' e t = zTimeoutExpires cfg s e t := by
  obtain ⟨b, hacc, htracks, _, _, hsorted⟩ := (initial_tracks dticks).run hfits hrun
  refine ⟨⟨⟨b, hacc, htracks.mem, fun p hp => ?_, fun hidle p hp => ?_⟩, hsorted⟩, ?_⟩
  · obtain ⟨q, hq, hb⟩ := htracks
    exact hq.deltas.le p (hb.mem.mpr hp)
  · obtain ⟨q, hq, hb⟩ := htracks
    exact (hq.idle hidle).2 p (hb.mem.mpr hp)
  · exact fun x ev hev hfit s' o hgo t ht hne e => htracks.expires_kept hev hfit hgo ht hne e

/-- Two timeouts, the second aborted, and one that the callback of the first adds. -/
def addAndAbort : List (Event (Fin 3)) :=
  [.add 0 4 2, .add 1 (-2 - 9) 0, .announce 8, .add 2 0 5, .abort 1, .returned]

theorem timeouts_exact_while_fitting_three : ∃ s os, run ⟨true⟩ (initial fun _ => 0) addAndAbort = some (s, os) ∧
    RunFits ⟨true⟩ (initial fun _ => 0) addAndAbort ∧ Exact s os ∧
    os = [.added 0 7, .added 1 9, .called 0 7, .added 2 8, .aborted 1, .called 2 8] := by
  refine Lib.Runs.exists_pair_that (R := fun _ os => os = [.added 0 7, .added 1 9, .called 0 7, .added 2 8, .aborted 1, .called 2 8])
    (by decide +kernel) fun s os hrun hos => ?_
  have hfits : RunFits ⟨true⟩ (initial fun _ => 0) addAndAbort := by decide +kernel
  exact ⟨hfits, (timeouts_exact_while_fitting _ hrun hfits).1, hos⟩

/-- 32-bit ticks that do not fit into `int32_t`: the timeout is called by the next announcement, of
no ticks at all. -/
def tooFarAhead : List (Event (Fin 1)) := [.add 0 (2 ^ 31 - 1) 0, .announce 0]

theorem timeout_called_early : ∃ s os, run ⟨false⟩ (initial fun _ => 0) tooFarAhead = some (s, os) ∧ ¬ Exact s os := by
  set r := (run ⟨false⟩ (initial fun _ => 0) tooFarAhead).get (by decide +kernel)
  have hget : run ⟨false⟩ (initial fun _ => 0) tooFarAhead = some r := (Option.some_get _).symm
  have hos : r.2 = [.added 0 (2 ^ 31), .called 0 (2 ^ 64 - 2 ^ 31)] := by decide +kernel
  refine ⟨r.1, r.2, hget, fun h => ?_⟩
  obtain ⟨b, hacc, _⟩ := h.accepts
  rw [hos] at hacc
  obtain ⟨b1, hadd, b2, hcall, _⟩ := hacc
  have hmem := hcall.mem_of_called rfl
  rw [hadd.eq_of_added rfl] at hmem
  simp at hmem

end RtosKernel.Zephyr.Timeout
