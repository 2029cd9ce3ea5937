import PermissionGraph.Permission.Kind

/-!
# PermissionGraph.Permission.Set

Sets of permission kinds as eight bits, of which five stand for kinds. The other three bits have
no meaning of their own, but union, intersection and difference carry them along unchanged, so that
a set read from a document is written back as it was.

* `PermissionSet.holds`: whether a kind is in the set; `holds_union`, `holds_inter` and
  `holds_sdiff` describe the operations through it.
* `PermissionSet.kinds`: the kinds held, in bit order.
-/

namespace PermissionGraph

structure PermissionSet where
  bits : BitVec 8
  deriving DecidableEq, Repr

namespace PermissionSet

instance : EmptyCollection PermissionSet := ⟨⟨0⟩⟩
instance : Inhabited PermissionSet := ⟨∅⟩
instance : Union PermissionSet := ⟨fun a b => ⟨a.bits ||| b.bits⟩⟩
instance : Inter PermissionSet := ⟨fun a b => ⟨a.bits &&& b.bits⟩⟩
instance : SDiff PermissionSet := ⟨fun a b => ⟨a.bits &&& ~~~b.bits⟩⟩

/-- Every bit that stands for a kind. -/
def full : PermissionSet := ⟨31⟩

def single (k : Permission) : PermissionSet := ⟨BitVec.twoPow 8 k.index⟩

def ofList (ks : List Permission) : PermissionSet :=
  ks.foldl (fun s k => s ∪ single k) ∅

def sum (l : List PermissionSet) : PermissionSet := l.foldl (· ∪ ·) ∅

def holds (s : PermissionSet) (k : Permission) : Bool := s.bits.getLsbD k.index

def kinds (s : PermissionSet) : List Permission := Permission.all.filter s.holds

def symmDiff (a b : PermissionSet) : PermissionSet := ⟨a.bits ^^^ b.bits⟩

/-- The kinds that are not held. Bits that stand for no kind are dropped. -/
def complement (s : PermissionSet) : PermissionSet := full \ s

/-- Whether every bit of `b` is in `a`. -/
def contains (a b : PermissionSet) : Bool := a ∩ b == b

def intersects (a b : PermissionSet) : Bool := a ∩ b != ∅

def isEmpty (s : PermissionSet) : Bool := s == ∅

def isFull (s : PermissionSet) : Bool := s.contains full

/-- Whether relationships may be created at an entity: writing includes linking. -/
def allowsLink (s : PermissionSet) : Bool := s.intersects (single .link ∪ single .write)

/-- The names of the kinds held, in bit order, between braces. -/
def toText (s : PermissionSet) : String :=
  "\x7b" ++ ",".intercalate (s.kinds.map Permission.name) ++ "\x7d"

@[ext] theorem ext_bits {a b : PermissionSet} (h : a.bits = b.bits) : a = b := by
  cases a; cases b; cases h; rfl

@[simp] theorem bits_empty : (∅ : PermissionSet).bits = 0 := rfl
@[simp] theorem bits_union (a b : PermissionSet) : (a ∪ b).bits = a.bits ||| b.bits := rfl
@[simp] theorem bits_inter (a b : PermissionSet) : (a ∩ b).bits = a.bits &&& b.bits := rfl
@[simp] theorem bits_sdiff (a b : PermissionSet) : (a \ b).bits = a.bits &&& ~~~b.bits := rfl
@[simp] theorem bits_symmDiff (a b : PermissionSet) :
    (symmDiff a b).bits = a.bits ^^^ b.bits := rfl

@[simp] theorem union_empty (s : PermissionSet) : s ∪ ∅ = s := ext_bits (by simp)

@[simp] theorem empty_sdiff (s : PermissionSet) : ∅ \ s = ∅ := ext_bits (by simp)

@[simp] theorem holds_empty (k : Permission) : (∅ : PermissionSet).holds k = false := by
  simp [holds]

@[simp] theorem holds_union (a b : PermissionSet) (k : Permission) :
    (a ∪ b).holds k = (a.holds k || b.holds k) := by
  simp [holds]

@[simp] theorem holds_inter (a b : PermissionSet) (k : Permission) :
    (a ∩ b).holds k = (a.holds k && b.holds k) := by
  simp [holds]

@[simp] theorem holds_sdiff (a b : PermissionSet) (k : Permission) :
    (a \ b).holds k = (a.holds k && !b.holds k) := by
  have : k.index < 8 := Nat.lt_trans k.index_lt (by decide)
  simp [holds, this]

@[simp] theorem holds_symmDiff (a b : PermissionSet) (k : Permission) :
    (symmDiff a b).holds k = (a.holds k ^^ b.holds k) := by
  simp [holds]

@[simp] theorem holds_single (k l : Permission) : (single k).holds l = decide (k = l) := by
  cases k <;> cases l <;> rfl

@[simp] theorem holds_full (k : Permission) : full.holds k = true := by cases k <;> rfl

theorem contains_iff {a b : PermissionSet} : a.contains b = true ↔ a ∪ b = a := by
  have h (x y : BitVec 8) : x &&& y = y ↔ x ||| y = x := by
    constructor <;> intro h <;> ext i hi <;> have := congrArg (BitVec.getLsbD · i) h <;>
      simp [hi] at this ⊢ <;> revert this <;> cases x[i] <;> cases y[i] <;> simp
  simp [contains, PermissionSet.ext_bits_iff, h]

theorem intersects_iff {a b : PermissionSet} : a.intersects b = true ↔ a \ b ≠ a := by
  have h (x y : BitVec 8) : x &&& y = 0#8 ↔ x &&& ~~~y = x := by
    constructor <;> intro h <;> ext i hi <;> have := congrArg (BitVec.getLsbD · i) h <;>
      simp [hi] at this ⊢ <;> revert this <;> cases x[i] <;> cases y[i] <;> simp
  simp [intersects, PermissionSet.ext_bits_iff, ← h]

theorem isEmpty_iff {s : PermissionSet} : s.isEmpty = true ↔ s = ∅ := by
  simp [isEmpty]

theorem mem_kinds {s : PermissionSet} {k : Permission} : k ∈ s.kinds ↔ s.holds k = true := by
  simp [kinds, Permission.mem_all]

theorem holds_foldl_single (ks : List Permission) (s : PermissionSet) (k : Permission) :
    (ks.foldl (fun s k => s ∪ single k) s).holds k = (s.holds k || decide (k ∈ ks)) := by
  induction ks generalizing s with
  | nil => simp
  | cons l ks ih =>
    rw [List.foldl_cons, ih]
    by_cases h : l = k
    · simp [h]
    · have : ¬ k = l := fun e => h e.symm
      simp [h, this]

@[simp] theorem holds_ofList (ks : List Permission) (k : Permission) :
    (ofList ks).holds k = decide (k ∈ ks) := by
  simp [ofList, holds_foldl_single]

theorem holds_foldl_union (l : List PermissionSet) (s : PermissionSet) (k : Permission) :
    (l.foldl (· ∪ ·) s).holds k = (s.holds k || l.any (·.holds k)) := by
  induction l generalizing s with
  | nil => simp
  | cons a l ih => rw [List.foldl_cons, ih]; simp [Bool.or_assoc]

@[simp] theorem holds_sum (l : List PermissionSet) (k : Permission) :
    (sum l).holds k = l.any (·.holds k) := by
  simp [sum, holds_foldl_union]

end PermissionSet
end PermissionGraph
