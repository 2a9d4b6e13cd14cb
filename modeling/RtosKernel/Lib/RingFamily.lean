import RtosKernel.Lib.Ring

/-! # Families of intrusive rings

Many rings share one memory of links. A ring `i` has a header of its own and holds items through the node `item
i` that each item has for it. Every node of the memory is in one place: in a ring, the header of one, or linked
to itself. -/
namespace RtosKernel.Lib.RingFamily
open Lib.Ring List Function

variable {α ι τ : Type} {next prev next' prev' : α → α} {head : ι → α} {item : ι → τ → α}
  {c c' : ι → List τ} {i j : ι} {n x : α} {t : τ} {l r : List τ}

/-- The nodes of ring `i`. -/
def nodes (item : ι → τ → α) (c : ι → List τ) (i : ι) : List α := (c i).map (item i)

/-- The rings `i` hold the items `c i`. -/
structure IsFamily (next prev : α → α) (head : ι → α) (item : ι → τ → α) (c : ι → List τ) :
    Prop where
  ring : ∀ i, IsRing next prev (head i) (nodes item c i)
  apart : ∀ i j x, x ∈ head i :: nodes item c i → x ∈ head j :: nodes item c j → i = j
  alone : ∀ x, (∀ i, x ∉ head i :: nodes item c i) → next x = x ∧ prev x = x

theorem IsFamily.ring_frame (hf : IsFamily next prev head item c) (i : ι)
    (hn : ∀ y ∈ head i :: nodes item c i, next' y = next y) (hp : ∀ y ∈ head i :: nodes item c i, prev' y = prev y) :
    IsRing next' prev' (head i) (nodes item c i) :=
  (hf.ring i).frame hn hp

theorem IsFamily.congr (hf : IsFamily next prev head item c)
    (hc : ∀ i, nodes item c' i = nodes item c i) : IsFamily next prev head item c' where
  ring i := by rw [hc i]; exact hf.ring i
  apart i j x hi hj := by
    rw [hc] at hi hj
    exact hf.apart i j x hi hj
  alone x hx := hf.alone x fun i => by rw [← hc i]; exact hx i

theorem IsFamily.empty (hinj : Function.Injective head) :
    IsFamily (fun x => x) (fun x => x) head item (fun _ => []) where
  ring _ := ⟨⟨rfl, rfl⟩, nodup_singleton _⟩
  apart i j x hi hj := by
    rw [nodes, map_nil, mem_singleton] at hi hj
    exact hinj (hi.symm.trans hj)
  alone _ _ := ⟨rfl, rfl⟩

theorem IsFamily.nodup (hf : IsFamily next prev head item c) (i : ι) : (c i).Nodup :=
  (nodup_cons.mp (hf.ring i).nodup).2.of_map _

theorem mem_neighbours {h : α} {l r k : List α} (hl : l ⊆ k) (hr : r ⊆ k) :
    before h l ∈ h :: k ∧ behind r h ∈ h :: k := by
  refine ⟨cons_subset_cons h hl (before_mem h l), ?_⟩
  rcases mem_append.mp (behind_mem r h) with hm | hm
  · exact mem_cons_of_mem _ (hr hm)
  · exact mem_cons.mpr (.inl (mem_singleton.mp hm))

variable [DecidableEq α] [DecidableEq ι]

section
variable (hf : IsFamily next prev head item c)
include hf

/-- One ring is changed, and at most the node `n` is put into it or taken out of it. -/
theorem IsFamily.change {k : List τ} (hring : IsRing next' prev' (head i) (k.map (item i)))
    (hsame : ∀ x ≠ n, (x ∈ head i :: k.map (item i) ↔ x ∈ head i :: nodes item c i))
    (hn : ∀ j, j ≠ i → n ∉ head j :: nodes item c j)
    (hframe : ∀ x, x ≠ n → x ∉ head i :: nodes item c i → next' x = next x ∧ prev' x = prev x)
    (hfree : n ∉ head i :: k.map (item i) → next' n = n ∧ prev' n = n) :
    IsFamily next' prev' head item (update c i k) := by
  have hself : nodes item (update c i k) i = k.map (item i) := by rw [nodes, update_self]
  have hother : ∀ j, j ≠ i → nodes item (update c i k) j = nodes item c j :=
    fun j hj => by rw [nodes, nodes, update_of_ne hj]
  -- a node of another ring is not in the one that is changed
  have hout : ∀ j, j ≠ i → ∀ x ∈ head j :: nodes item c j, x ≠ n ∧ x ∉ head i :: nodes item c i :=
    fun j hj x hx => ⟨fun e => hn j hj (e ▸ hx), fun hxi => hj (hf.apart j i x hx hxi)⟩
  have hmine : ∀ j, j ≠ i → ∀ x ∈ head j :: nodes item c j, x ∉ head i :: k.map (item i) :=
    fun j hj x hx hxi => (hout j hj x hx).2 ((hsame x (hout j hj x hx).1).mp hxi)
  refine ⟨fun j => ?_, fun j m x hj hm => ?_, fun x hx => ?_⟩
  · by_cases hj : j = i
    · subst hj
      rw [hself]
      exact hring
    · rw [hother j hj]
      exact hf.ring_frame j (fun y hy => (hframe y (hout j hj y hy).1 (hout j hj y hy).2).1)
        fun y hy => (hframe y (hout j hj y hy).1 (hout j hj y hy).2).2
  · by_cases hji : j = i <;> by_cases hmi : m = i
    · rw [hji, hmi]
    · rw [hother m hmi] at hm
      rw [hji, hself] at hj
      exact absurd hj (hmine m hmi x hm)
    · rw [hother j hji] at hj
      rw [hmi, hself] at hm
      exact absurd hm (hmine j hji x hj)
    · rw [hother j hji] at hj
      rw [hother m hmi] at hm
      exact hf.apart j m x hj hm
  · have hxi := hx i
    rw [hself] at hxi
    by_cases hxn : x = n
    · subst hxn
      exact hfree hxi
    have hxold : x ∉ head i :: nodes item c i := fun hm => hxi ((hsame x hxn).mpr hm)
    obtain ⟨hnext, hprev⟩ := hframe x hxn hxold
    rw [hnext, hprev]
    refine hf.alone x fun j => ?_
    by_cases hj : j = i
    · rwa [hj]
    · rw [← hother j hj]
      exact hx j

/-- **Linking a free node** between two parts of a ring. -/
theorem IsFamily.insert (hc : c i = l ++ r) (hn : ∀ j, item i t ∉ head j :: nodes item c j) :
    IsFamily
      (update (update next (item i t) (behind (r.map (item i)) (head i)))
        (before (head i) (l.map (item i))) (item i t))
      (update (update prev (item i t) (before (head i) (l.map (item i))))
        (behind (r.map (item i)) (head i)) (item i t))
      head item (update c i (l ++ t :: r)) := by
  have hnodes : nodes item c i = l.map (item i) ++ r.map (item i) := by
    rw [nodes, hc, map_append]
  obtain ⟨hbefore, hbehind⟩ : before (head i) (l.map (item i)) ∈ head i :: nodes item c i ∧
      behind (r.map (item i)) (head i) ∈ head i :: nodes item c i := by
    rw [hnodes]
    exact mem_neighbours (by simp) (by simp)
  have hring := hf.ring i
  have hni := hn i
  rw [hnodes] at hring hni
  have hself : (l ++ t :: r).map (item i) = l.map (item i) ++ item i t :: r.map (item i) := by
    rw [map_append, map_cons]
  refine hf.change (n := item i t) ?_ ?_ (fun j _ => hn j) (fun x hxn hx => ?_) ?_
  · rw [hself]
    exact hring.insert hni
  · intro x hx
    rw [hself, hnodes]
    simp [hx]
  · have hb := ne_of_mem_of_not_mem hbefore hx
    have hb' := ne_of_mem_of_not_mem hbehind hx
    rw [update_of_ne hb.symm, update_of_ne hxn, update_of_ne hb'.symm, update_of_ne hxn]
    exact ⟨rfl, rfl⟩
  · rw [hself]
    simp

theorem IsFamily.remove (hc : c i = l ++ t :: r) :
    IsFamily
      (update (update next (before (head i) (l.map (item i)))
        (behind (r.map (item i)) (head i))) (item i t) (item i t))
      (update (update prev (behind (r.map (item i)) (head i))
        (before (head i) (l.map (item i)))) (item i t) (item i t))
      head item (update c i (l ++ r)) := by
  have hnodes : nodes item c i = l.map (item i) ++ item i t :: r.map (item i) := by
    rw [nodes, hc, map_append, map_cons]
  obtain ⟨hbefore, hbehind⟩ : before (head i) (l.map (item i)) ∈ head i :: nodes item c i ∧
      behind (r.map (item i)) (head i) ∈ head i :: nodes item c i := by
    rw [hnodes]
    exact mem_neighbours (by simp) fun x hx => by simp [hx]
  have hring := hf.ring i
  rw [hnodes] at hring
  have hmine : item i t ∈ head i :: nodes item c i := by rw [hnodes]; simp
  -- the node taken out is no longer in the ring
  have hgone : item i t ∉ head i :: (l.map (item i) ++ r.map (item i)) := by
    have hnd := hring.nodup
    rw [← cons_append] at hnd ⊢
    exact (nodup_cons.mp (nodup_middle.mp hnd)).1
  refine hf.change (n := item i t) ?_ ?_ (fun j hj hm => hj (hf.apart j i _ hm hmine)) (fun x hxn hx => ?_)
    fun _ => ⟨update_self .., update_self ..⟩
  · rw [map_append]
    refine hring.remove.frame (fun y hy => ?_) fun y hy => ?_
    · exact update_of_ne (ne_of_mem_of_not_mem hy hgone) _ _
    · exact update_of_ne (ne_of_mem_of_not_mem hy hgone) _ _
  · intro x hx
    rw [map_append, hnodes]
    simp [hx]
  · have hb := ne_of_mem_of_not_mem hbefore hx
    have hb' := ne_of_mem_of_not_mem hbehind hx
    rw [update_of_ne hxn, update_of_ne hb.symm, update_of_ne hxn, update_of_ne hb'.symm]
    exact ⟨rfl, rfl⟩

/-- **Unlinking any node** that is no header: it leaves the ring it is in, if any. -/
theorem IsFamily.unlink (hhead : ∀ i, n ≠ head i) (hc : ∀ i, nodes item c' i = (nodes item c i).erase n) :
    IsFamily (update (update next (update prev (next n) (prev n) n) (next n)) n n)
      (update (update prev (next n) (prev n)) n n) head item c' := by
  by_cases hin : ∃ i, n ∈ nodes item c i
  · obtain ⟨i, hin⟩ := hin
    obtain ⟨t, ht, rfl⟩ := mem_map.mp hin
    obtain ⟨l, r, hsplit⟩ := append_of_mem ht
    have hnodes : nodes item c i = l.map (item i) ++ item i t :: r.map (item i) := by
      rw [nodes, hsplit, map_append, map_cons]
    have hring := hf.ring i
    rw [hnodes] at hring
    obtain ⟨hn, hp⟩ := hring.neighbours
    have hrem := hf.remove hsplit
    rw [hn, hp, update_of_ne hring.behind_ne, hp]
    refine hrem.congr fun j => ?_
    rw [hc j]
    by_cases hj : j = i
    · subst hj
      have hnot : item j t ∉ l.map (item j) := by
        have hnd := (nodup_cons.mp hring.nodup).2
        exact fun hm => (nodup_append.mp hnd).2.2 _ hm _ (mem_cons_self ..) rfl
      rw [hnodes, erase_append_right _ hnot, erase_cons_head, nodes, update_self, map_append]
    · have hnot : item i t ∉ nodes item c j := fun hm =>
        hj (hf.apart j i _ (mem_cons_of_mem _ hm) (mem_cons_of_mem _ hin))
      rw [erase_of_not_mem hnot, nodes, nodes, update_of_ne hj]
  · have hnot : ∀ i, n ∉ nodes item c i := fun i hm => hin ⟨i, hm⟩
    obtain ⟨hn, hp⟩ := hf.alone n fun i hm => by
      rcases mem_cons.mp hm with he | hm
      · exact hhead i he
      · exact hnot i hm
    have hnext : ∀ f : α → α, f n = n → update f n n = f := fun f he => by
      rw [update_eq_self_iff, he]
    rw [hn, hp, hnext prev hp, hp, hnext next hn, hnext next hn, hnext prev hp]
    refine hf.congr fun i => ?_
    rw [hc i, erase_of_not_mem (hnot i)]

end

end RtosKernel.Lib.RingFamily
