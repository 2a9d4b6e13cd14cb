import Mathlib.Algebra.Order.Ring.Nat
import Mathlib.Tactic.Ring

/-! # The stride of JSON arrays

`get_elem_size` adds up the sizes of the described members, each rounded up to one alignment. That is the size
of the struct if the rounding adds as many bytes as lie outside of the members. -/
namespace RtosKernel.Zephyr.Json

/-- `ROUND_UP`. The alignments are powers of two. -/
def roundUp (x align : Nat) : Nat := (x + (align - 1)) / align * align

/-! ## Structs -/

/-- The tokens of the primitive values: an `int32_t`, a `char *` and a `bool`. -/
inductive Tok where
  | number
  | string
  | true

/-- `sizeof`, which is also the alignment, on a 32-bit target. -/
def Tok.size : Tok → Nat
  | .number => 4
  | .string => 4
  | .true => 1

mutual
inductive CType where
  | prim (type : Tok)
  | struct (fields : Fields)

/-- The members of a struct in order: values, arrays with their length, and the `size_t` counts of the arrays. -/
inductive Fields where
  | nil
  | member (t : CType) (maxLen : Option Nat) (rest : Fields)
  | count (rest : Fields)
end

mutual
def CType.align : CType → Nat
  | .prim type => type.size
  | .struct fields => fields.align

def Fields.align : Fields → Nat
  | .nil => 1
  | .member t _ rest => max t.align rest.align
  | .count rest => max 4 rest.align
end

mutual
/-- `sizeof`. -/
def CType.size : CType → Nat
  | .prim type => type.size
  | .struct fields => roundUp (fields.lay 0) fields.align

/-- The offset behind the members when they are laid out from `offset` on. -/
def Fields.lay (offset : Nat) : Fields → Nat
  | .nil => offset
  | .member t maxLen rest => rest.lay (roundUp offset t.align + maxLen.getD 1 * t.size)
  | .count rest => rest.lay (roundUp offset 4 + 4)
end

def Fields.arrays : Fields → List (CType × Nat)
  | .nil => []
  | .member t maxLen rest => (maxLen.map (t, ·)).toList ++ rest.arrays
  | .count rest => rest.arrays

def Fields.counts : Fields → Nat
  | .nil => 0
  | .member _ _ rest => rest.counts
  | .count rest => rest.counts + 1

/-! ## Descriptors -/

inductive ObjDescr where
  | prim (alignShift : Nat) (type : Tok)
  | object (alignShift : Nat) (subDescr : List ObjDescr)
  | array (alignShift : Nat) (elementDescr : ObjDescr) (nElements : Nat)

mutual
def getElemSize : ObjDescr → Nat
  | .prim _ type => type.size
  | .array _ elementDescr nElements => nElements * getElemSize elementDescr
  | .object alignShift subDescr => total alignShift subDescr

/-- The loop over the members of an object. -/
def total (alignShift : Nat) : List ObjDescr → Nat
  | [] => 0
  | d :: ds => roundUp (getElemSize d) (1 <<< alignShift) + total alignShift ds
end

def alignShift (align : Nat) : Nat := if align = 1 then 0 else if align = 2 then 1 else if align = 4 then 2 else 3

mutual
/-- The macros. An element has the alignment of the struct that the array is in. -/
def CType.descr (shift : Nat) : CType → ObjDescr
  | .prim type => .prim shift type
  | .struct fields => .object shift (fields.descrs (alignShift fields.align))

def Fields.descrs (shift : Nat) : Fields → List ObjDescr
  | .nil => []
  | .member t none rest => t.descr shift :: rest.descrs shift
  | .member t (some maxLen) rest => .array shift (t.descr shift) maxLen :: rest.descrs shift
  | .count rest => rest.descrs shift
end

/-- A struct with an array of `n` structs that have the members `s`, and with a count. -/
structure Parent (s : Fields) (n : Nat) where
  fields : Fields
  array : (CType.struct s, n) ∈ fields.arrays
  count : 0 < fields.counts

variable {s : Fields} {n : Nat}

/-- The element descriptor of `JSON_OBJ_DESCR_OBJ_ARRAY`. -/
def Parent.elementDescr (p : Parent s n) : ObjDescr := (CType.struct s).descr (alignShift p.fields.align)

/-- The address in `arr_parse` and `arr_encode` after `i` elements. -/
def elemAddr (d : ObjDescr) (field : Nat) : Nat → Nat
  | 0 => field
  | i + 1 => elemAddr d field i + getElemSize d

/-- The stride is the size of the struct, and leads to the elements of the array. -/
structure Exact (p : Parent s n) : Prop where
  size : getElemSize p.elementDescr = (CType.struct s).size
  addr : ∀ field, ∀ i < n, elemAddr p.elementDescr field i = field + i * (CType.struct s).size

/-- The bytes that rounding each member up to words adds. -/
def Fields.rounding : Fields → Nat
  | .nil => 0
  | .member t maxLen rest => (roundUp (maxLen.getD 1 * t.size) 4 - maxLen.getD 1 * t.size) + rest.rounding
  | .count rest => rest.rounding

mutual
/-- The same for `k` values side by side. The members of a struct are rounded, in a struct with words those of
its structs too. -/
def CType.added (k : Nat) : CType → Nat
  | .prim type => roundUp (k * type.size) 4 - k * type.size
  | .struct fields => k * if fields.align = 1 then fields.rounding else fields.added

def Fields.added : Fields → Nat
  | .nil => 0
  | .member t maxLen rest => t.added (maxLen.getD 1) + rest.added
  | .count rest => rest.added
end

/-- The bytes of the described members. -/
def Fields.bytes : Fields → Nat
  | .nil => 0
  | .member t maxLen rest => maxLen.getD 1 * t.size + rest.bytes
  | .count rest => rest.bytes

mutual
/-- The bytes of a struct, and of the structs in it, that are of no described member: the padding and the counts. -/
def CType.outside : CType → Nat
  | .prim _ => 0
  | .struct fields => (roundUp (fields.lay 0) fields.align - fields.bytes) + fields.outside

def Fields.outside : Fields → Nat
  | .nil => 0
  | .member t maxLen rest => maxLen.getD 1 * t.outside + rest.outside
  | .count rest => rest.outside
end

/-! ## The balance -/

theorem le_roundUp {a : Nat} (h : a = 1 ∨ a = 4) (x : Nat) : x ≤ roundUp x a := by
  rcases h with rfl | rfl <;> simp only [roundUp] <;> omega

theorem roundUp_one (x : Nat) : roundUp x 1 = x := by simp [roundUp]

theorem roundUp_mul {x : Nat} (hx : x % 4 = 0) (k : Nat) : roundUp (k * x) 4 = k * x := by
  have hk : k * x % 4 = 0 := by rw [Nat.mul_mod, hx, Nat.mul_zero, Nat.zero_mod]
  unfold roundUp
  omega

theorem total_mod : ∀ ds : List ObjDescr, total 2 ds % 4 = 0
  | [] => rfl
  | d :: ds => by
    have hrest := total_mod ds
    rw [total]
    unfold roundUp
    omega

theorem total_member (shift a : Nat) (t : CType) (maxLen : Option Nat) (rest : Fields) :
    total a ((Fields.member t maxLen rest).descrs shift) =
      roundUp (maxLen.getD 1 * getElemSize (t.descr shift)) (1 <<< a) + total a (rest.descrs shift) := by
  cases maxLen <;> simp [Fields.descrs, total, getElemSize]

mutual
theorem CType.align_cases : ∀ t : CType, t.align = 1 ∨ t.align = 4
  | .prim .number => .inr rfl
  | .prim .string => .inr rfl
  | .prim .true => .inl rfl
  | .struct fields => fields.align_cases

theorem Fields.align_cases : ∀ fields : Fields, fields.align = 1 ∨ fields.align = 4
  | .nil => .inl rfl
  | .member t _ rest => by
    have ht := t.align_cases
    have hrest := rest.align_cases
    rw [Fields.align]
    omega
  | .count rest => by
    have hrest := rest.align_cases
    rw [Fields.align]
    omega
end

theorem Fields.align_of_counts : ∀ fields : Fields, 0 < fields.counts → fields.align = 4
  | .member t _ rest, h => by
    have ht := t.align_cases
    have hrest := rest.align_of_counts h
    rw [Fields.align]
    omega
  | .count rest, _ => by
    have hrest := rest.align_cases
    rw [Fields.align]
    omega

theorem Fields.bytes_le : ∀ (fields : Fields) (offset : Nat), offset + fields.bytes ≤ fields.lay offset
  | .nil, _ => le_refl _
  | .member t maxLen rest, offset => by
    have hrest := rest.bytes_le (roundUp offset t.align + maxLen.getD 1 * t.size)
    have hround := le_roundUp t.align_cases offset
    rw [Fields.bytes, Fields.lay]
    omega
  | .count rest, offset => by
    have hrest := rest.bytes_le (roundUp offset 4 + 4)
    have hround := le_roundUp (.inr rfl) offset
    rw [Fields.bytes, Fields.lay]
    omega

mutual
/-- A struct without words has neither padding nor counts, and the sizes in it are exact. -/
theorem CType.small : ∀ t : CType, t.align = 1 → getElemSize (t.descr 0) = t.size ∧ t.outside = 0
  | .prim _, _ => ⟨rfl, rfl⟩
  | .struct fields, h => by
    replace h : fields.align = 1 := h
    obtain ⟨htotal, hlay, hout⟩ := fields.small h
    rw [CType.outside, CType.size, h, roundUp_one, hlay, hout, Nat.zero_add, Nat.sub_self]
    refine ⟨?_, rfl⟩
    rw [CType.descr, h]
    exact htotal

theorem Fields.small : ∀ fields : Fields, fields.align = 1 →
    total 0 (fields.descrs 0) = fields.bytes ∧ (∀ o, fields.lay o = o + fields.bytes) ∧ fields.outside = 0
  | .nil, _ => ⟨rfl, fun _ => rfl, rfl⟩
  | .member t maxLen rest, h => by
    have ht := t.align_cases
    have hrest := rest.align_cases
    rw [Fields.align] at h
    obtain ⟨hsize, hout⟩ := t.small (by omega)
    obtain ⟨htotal, hlay, hout'⟩ := rest.small (by omega)
    refine ⟨?_, fun o => ?_, ?_⟩
    · rw [total_member, htotal, hsize, Fields.bytes]
      exact congrArg (· + _) (roundUp_one _)
    · rw [Fields.lay, hlay, show t.align = 1 by omega, roundUp_one, Fields.bytes, Nat.add_assoc]
    · rw [Fields.outside, hout, hout', Nat.mul_zero]
  | .count rest, h => by
    rw [Fields.align] at h
    omega
end

theorem Fields.total_rounding : ∀ fields : Fields, fields.align = 1 →
    total 2 (fields.descrs 0) = fields.bytes + fields.rounding
  | .nil, _ => rfl
  | .member t maxLen rest, h => by
    have ht := t.align_cases
    have hrest := rest.align_cases
    rw [Fields.align] at h
    have hle := le_roundUp (.inr rfl) (maxLen.getD 1 * t.size)
    rw [total_member, rest.total_rounding (by omega), (t.small (by omega)).1, Fields.bytes, Fields.rounding]
    change roundUp (maxLen.getD 1 * t.size) 4 + _ = _
    omega
  | .count rest, h => by
    rw [Fields.align] at h
    omega

mutual
theorem CType.balance (k : Nat) : ∀ t : CType,
    roundUp (k * getElemSize (t.descr 2)) 4 + k * t.outside = k * t.size + t.added k
  | .prim type => by
    have hle := le_roundUp (.inr rfl) (k * type.size)
    change roundUp (k * type.size) 4 + k * 0 = k * type.size + (roundUp (k * type.size) 4 - k * type.size)
    omega
  | .struct fields => by
    rw [CType.descr, getElemSize, roundUp_mul (total_mod _), CType.outside, CType.size, CType.added, ← Nat.mul_add,
      ← Nat.mul_add]
    refine congrArg (k * ·) ?_
    rcases fields.align_cases with h | h
    · obtain ⟨-, hlay, hout⟩ := fields.small h
      have htotal := fields.total_rounding h
      rw [if_pos h, h, roundUp_one, hlay, hout]
      change total 2 (fields.descrs 0) + _ = _
      omega
    · have hfields := fields.balance
      have hbytes := fields.bytes_le 0
      have hle := le_roundUp (.inr rfl) (fields.lay 0)
      rw [if_neg (by omega), h]
      change total 2 (fields.descrs 2) + _ = _
      omega

theorem Fields.balance : ∀ fields : Fields, total 2 (fields.descrs 2) + fields.outside = fields.bytes + fields.added
  | .nil => rfl
  | .member t maxLen rest => by
    have ht := t.balance (maxLen.getD 1)
    have hrest := rest.balance
    rw [total_member, Fields.outside, Fields.bytes, Fields.added]
    change roundUp (_ * getElemSize (t.descr 2)) 4 + _ + _ = _
    omega
  | .count rest => rest.balance
end

/-- **The stride is the size of the struct** if and only if the rounding adds as many bytes as lie outside of the
members. -/
theorem getElemSize_exact_iff (p : Parent s n) : Exact p ↔ (CType.struct s).added 1 = (CType.struct s).outside := by
  have hbalance : getElemSize p.elementDescr + (CType.struct s).outside =
      (CType.struct s).size + (CType.struct s).added 1 := by
    have hmod : getElemSize ((CType.struct s).descr 2) % 4 = 0 := total_mod _
    have hone := (CType.struct s).balance 1
    rw [roundUp_mul hmod, Nat.one_mul, Nat.one_mul, Nat.one_mul] at hone
    rw [Parent.elementDescr, p.fields.align_of_counts p.count]
    exact hone
  constructor
  · intro h
    have := h.size
    omega
  · intro h
    have hsize : getElemSize p.elementDescr = (CType.struct s).size := by omega
    refine ⟨hsize, fun field i _ => ?_⟩
    induction i with
    | zero => simp [elemAddr]
    | succ i ih => rw [elemAddr, ih (by omega), hsize, Nat.succ_mul, Nat.add_assoc]

/-- A number and two flags: 8 bytes, of which the code makes 12. -/
def flagged : Fields := .member (.prim .number) none (.member (.prim .true) none (.member (.prim .true) none .nil))

theorem getElemSize_flagged : ∃ p : Parent flagged 2,
    getElemSize p.elementDescr = 12 ∧ (CType.struct flagged).size = 8 ∧ ¬ Exact p := by
  refine ⟨⟨.member (.struct flagged) (some 2) (.count .nil), by simp [Fields.arrays], by decide⟩, ?_, ?_, ?_⟩
  · decide
  · decide
  · exact fun h => absurd h.size (by decide)

end RtosKernel.Zephyr.Json
