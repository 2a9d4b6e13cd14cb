import RtosKernel.Lib.Window

/-! # Records laid around a ring

Records of different lengths follow each other in a ring of `n` cells, none of them across the end. What a
record means is a predicate on the cells it has. -/
namespace RtosKernel.Lib.RingRecords
open Lib.Window List

variable {α β : Type} (n : Nat) (len : α → Nat) (P : (Nat → β) → Nat → α → Prop)

def total (as : List α) : Nat := (as.map len).sum

/-- The records follow each other, the first at `p`. -/
def Laid (buf : Nat → β) : Nat → List α → Prop
  | _, [] => True
  | p, a :: as => p + len a ≤ n ∧ P buf p a ∧ Laid buf ((p + len a) % n) as

/-- The records with their positions. -/
def positions : Nat → List α → List (Nat × α)
  | _, [] => []
  | p, a :: as => (p, a) :: positions ((p + len a) % n) as

/-- What a record means depends on its own cells. -/
def Local : Prop := ∀ buf buf' p a, (∀ k < len a, buf' (p + k) = buf (p + k)) → P buf p a → P buf' p a

variable {n len P} {buf buf' : Nat → β} {p q : Nat} {a a' : α} {as bs : List α}

@[simp] theorem total_nil : total len ([] : List α) = 0 := rfl

@[simp] theorem total_cons : total len (a :: as) = len a + total len as := by simp [total]

@[simp] theorem total_append : total len (as ++ bs) = total len as + total len bs := by simp [total]

theorem mod_step (p i j : Nat) : ((p + i) % n + j) % n = (p + (i + j)) % n := by
  rw [Nat.mod_add_mod, Nat.add_assoc]

theorem mod_inj {i j : Nat} (hp : p < n) (hi : i < n) (hj : j < n) (h : (p + i) % n = (p + j) % n) : i = j := by
  rw [mod_of_lt_two (by omega), mod_of_lt_two (by omega)] at h
  split at h <;> split at h <;> omega

theorem mod_offset {o : Nat} (hp : p < n) (ho : o < n) : ((p + o) % n + n - p) % n = o := by
  have h := mod_of_lt_two (x := p + o) (n := n) (by omega)
  rw [mod_of_lt_two (x := (p + o) % n + n - p) (by split at h <;> omega)]
  split at h <;> split <;> omega

theorem outside_of_offset {o l j : Nat} (hp : p < n) (hj : j < n) (hle : (p + o) % n + l ≤ n) (hol : o + l ≤ n)
    (h : j < o ∨ o + l ≤ j) : (p + j) % n < (p + o) % n ∨ (p + o) % n + l ≤ (p + j) % n := by
  by_contra hin
  set k := (p + j) % n - (p + o) % n with hk
  have heq : (p + j) % n = (p + (o + k)) % n := by
    rw [← mod_step, Nat.mod_eq_of_lt (show (p + o) % n + k < n by omega)]
    omega
  have := mod_inj hp hj (by omega) heq
  omega

theorem laid_append (hp : p < n) : Laid n len P buf p (as ++ bs) ↔
    Laid n len P buf p as ∧ Laid n len P buf ((p + total len as) % n) bs := by
  induction as generalizing p with
  | nil => simp [Laid, Nat.mod_eq_of_lt hp]
  | cons a as ih =>
    have hn : 0 < n := by omega
    simp only [cons_append, Laid, ih (Nat.mod_lt _ hn), total_cons, mod_step, and_assoc]

theorem Laid.congr (hP : Local len P) (hp : p < n) (h : Laid n len P buf p as)
    (hbuf : ∀ j < total len as, buf' ((p + j) % n) = buf ((p + j) % n)) : Laid n len P buf' p as := by
  induction as generalizing p with
  | nil => trivial
  | cons a as ih =>
    have hn : 0 < n := by omega
    obtain ⟨hle, ha, has⟩ := h
    refine ⟨hle, hP _ _ _ _ (fun k hk => ?_) ha, ih (Nat.mod_lt _ hn) has fun j hj => ?_⟩
    · have := hbuf k (by simp; omega)
      rwa [Nat.mod_eq_of_lt (by omega)] at this
    · have := hbuf (len a + j) (by simp; omega)
      rwa [mod_step]

theorem Laid.rotate (hp : p < n) (h : Laid n len P buf p (a :: as)) (hfull : total len (a :: as) = n) :
    Laid n len P buf ((p + len a) % n) (as ++ [a]) := by
  have hn : 0 < n := by omega
  obtain ⟨hle, ha, has⟩ := h
  refine (laid_append (Nat.mod_lt _ hn)).mpr ⟨has, ?_⟩
  rw [mod_step, ← total_cons, hfull, Nat.add_mod_right, Nat.mod_eq_of_lt hp]
  exact ⟨hle, ha, trivial⟩

theorem Laid.snoc (hP : Local len P) (hp : p < n) (h : Laid n len P buf p as) (hfit : total len as + len a ≤ n)
    (hle : (p + total len as) % n + len a ≤ n) (ha : P buf' ((p + total len as) % n) a)
    (hbuf : ∀ x, x < (p + total len as) % n ∨ (p + total len as) % n + len a ≤ x → buf' x = buf x) :
    Laid n len P buf' p (as ++ [a]) := by
  refine (laid_append hp).mpr ⟨h.congr hP hp fun j hj => hbuf _ ?_, hle, ha, trivial⟩
  exact outside_of_offset hp (by omega) hle hfit (.inl hj)

theorem Laid.modify (hP : Local len P) (hp : p < n) (h : Laid n len P buf p (as ++ a :: bs))
    (hfit : total len (as ++ a :: bs) ≤ n) (hlen : len a' = len a) (ha : P buf' ((p + total len as) % n) a')
    (hbuf : ∀ x, x < (p + total len as) % n ∨ (p + total len as) % n + len a ≤ x → buf' x = buf x) :
    Laid n len P buf' p (as ++ a' :: bs) := by
  have hn : 0 < n := by omega
  obtain ⟨has, hle, _, hbs⟩ := (laid_append hp).mp h
  simp only [total_append, total_cons] at hfit
  have hout : ∀ j < n, j < total len as ∨ total len as + len a ≤ j → buf' ((p + j) % n) = buf ((p + j) % n) :=
    fun j hj hjo => hbuf _ (outside_of_offset hp hj hle (by omega) hjo)
  refine (laid_append hp).mpr ⟨has.congr hP hp fun j hj => hout j (by omega) (.inl hj), ?_, ha, ?_⟩
  · rw [hlen]; exact hle
  · rw [hlen]
    refine hbs.congr hP (Nat.mod_lt _ hn) fun j hj => ?_
    rw [mod_step, mod_step]
    exact hout _ (by omega) (.inr (by omega))

theorem Laid.tail (hP : Local len P) (hp : p < n) (h : Laid n len P buf p (a :: as)) (hfit : total len (a :: as) ≤ n)
    (hbuf : ∀ x, x < p ∨ p + len a ≤ x → buf' x = buf x) : Laid n len P buf' ((p + len a) % n) as := by
  obtain ⟨hle, _, has⟩ := h
  have hn : 0 < n := by omega
  have h0 : (p + 0) % n = p := Nat.mod_eq_of_lt hp
  simp only [total_cons] at hfit
  refine has.congr hP (Nat.mod_lt _ hn) fun j hj => hbuf _ ?_
  rw [mod_step]
  have := outside_of_offset (o := 0) (l := len a) (j := len a + j) hp (by omega) (by rw [h0]; exact hle) (by omega)
    (.inr (by omega))
  rwa [h0] at this

theorem Laid.at (h : Laid n len P buf p as) {x : Nat × α} (hx : x ∈ positions n len p as) :
    x.1 + len x.2 ≤ n ∧ P buf x.1 x.2 := by
  induction as generalizing p with
  | nil => cases hx
  | cons a as ih =>
    obtain ⟨hle, ha, has⟩ := h
    rcases mem_cons.mp hx with rfl | hx
    · exact ⟨hle, ha⟩
    · exact ih has hx

theorem mem_of_positions {x : Nat × α} (hx : x ∈ positions n len p as) : x.2 ∈ as := by
  induction as generalizing p with
  | nil => cases hx
  | cons a as ih =>
    rcases mem_cons.mp hx with rfl | hx
    · exact mem_cons_self ..
    · exact mem_cons_of_mem _ (ih hx)

theorem Laid.imp_at {Q : (Nat → β) → Nat → α → Prop} (h : Laid n len P buf p as)
    (hQ : ∀ x ∈ positions n len p as, Q buf x.1 x.2) : Laid n len Q buf p as := by
  induction as generalizing p with
  | nil => trivial
  | cons a as ih =>
    obtain ⟨hle, _, has⟩ := h
    exact ⟨hle, hQ (p, a) (mem_cons_self ..), ih has fun x hx => hQ x (mem_cons_of_mem _ hx)⟩

theorem positions_offset {x : Nat × α} (hx : x ∈ positions n len p as) (hp : p < n) :
    ∃ o, o + len x.2 ≤ total len as ∧ x.1 = (p + o) % n := by
  induction as generalizing p with
  | nil => cases hx
  | cons a as ih =>
    have hn : 0 < n := by omega
    rcases mem_cons.mp hx with rfl | hx
    · exact ⟨0, by simp, by simp [Nat.mod_eq_of_lt hp]⟩
    · obtain ⟨o, ho, hpos⟩ := ih hx (Nat.mod_lt _ hn)
      refine ⟨len a + o, by simp; omega, ?_⟩
      rw [hpos, mod_step]

theorem mem_positions (n : Nat) (len : α → Nat) {a : α} (ha : a ∈ as) (p : Nat) : ∃ q, (q, a) ∈ positions n len p as := by
  induction as generalizing p with
  | nil => cases ha
  | cons b as ih =>
    rcases mem_cons.mp ha with rfl | ha
    · exact ⟨p, mem_cons_self ..⟩
    · obtain ⟨q, hq⟩ := ih ha ((p + len b) % n)
      exact ⟨q, mem_cons_of_mem _ hq⟩

theorem positions_append (hp : p < n) :
    positions n len p (as ++ bs) = positions n len p as ++ positions n len ((p + total len as) % n) bs := by
  induction as generalizing p with
  | nil => simp [positions, Nat.mod_eq_of_lt hp]
  | cons a as ih =>
    have hn : 0 < n := by omega
    simp only [cons_append, positions, ih (Nat.mod_lt _ hn), total_cons, mod_step]

theorem positions_snd (n : Nat) (len : α → Nat) (p : Nat) (as : List α) : (positions n len p as).map Prod.snd = as := by
  induction as generalizing p with
  | nil => rfl
  | cons a as ih => simp [positions, ih]

theorem Laid.apart (h : Laid n len P buf p as) (hp : p < n) (hfit : total len as ≤ n) :
    (positions n len p as).Pairwise fun x y => x.1 + len x.2 ≤ y.1 ∨ y.1 + len y.2 ≤ x.1 := by
  induction as generalizing p with
  | nil => exact List.Pairwise.nil
  | cons a as ih =>
    have hn : 0 < n := by omega
    obtain ⟨hle, _, has⟩ := h
    simp only [total_cons] at hfit
    refine pairwise_cons.mpr ⟨fun y hy => ?_, ih has (Nat.mod_lt _ hn) (by omega)⟩
    obtain ⟨o, ho, hpos⟩ := positions_offset hy (Nat.mod_lt _ hn)
    rw [mod_step] at hpos
    have h2 := mod_of_lt_two (x := p + (len a + o)) (n := n) (by omega)
    dsimp only
    split at h2 <;> omega

end RtosKernel.Lib.RingRecords
