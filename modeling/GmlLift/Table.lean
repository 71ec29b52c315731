/-! Tables with their keys in strictly ascending order.

A table has one form for its contents: two tables that answer every look-up alike are equal. -/

namespace GmlLift

structure Table (κ ν : Type) [Ord κ] where
  items : List (κ × ν)
  ordered : items.Pairwise fun a b => compare a.1 b.1 = .lt

namespace Table

variable {κ ν : Type} [Ord κ]

def empty : Table κ ν := ⟨[], .nil⟩

instance : EmptyCollection (Table κ ν) := ⟨empty⟩
instance : Inhabited (Table κ ν) := ⟨empty⟩

/-- The value of a key in a list of entries. -/
def find (k : κ) : List (κ × ν) → Option ν
  | [] => none
  | (k', v) :: rest => if compare k k' = .eq then some v else find k rest

/-- Put an entry into its place, replacing one with the same key. -/
def insertIn (k : κ) (v : ν) : List (κ × ν) → List (κ × ν)
  | [] => [(k, v)]
  | (k', v') :: rest => match compare k k' with
    | .lt => (k, v) :: (k', v') :: rest
    | .eq => (k, v) :: rest
    | .gt => (k', v') :: insertIn k v rest

theorem mem_insertIn {k : κ} {v : ν} {x : κ × ν} {l : List (κ × ν)} (h : x ∈ insertIn k v l) :
    x = (k, v) ∨ x ∈ l := by
  induction l with
  | nil => simpa [insertIn] using h
  | cons a rest ih =>
    simp only [insertIn] at h
    split at h <;> grind

theorem insertIn_ordered [Std.TransOrd κ] [Std.LawfulEqOrd κ] (k : κ) (v : ν)
    {l : List (κ × ν)} (h : l.Pairwise fun a b => compare a.1 b.1 = .lt) :
    (insertIn k v l).Pairwise fun a b => compare a.1 b.1 = .lt := by
  induction l with
  | nil => simp [insertIn]
  | cons a rest ih =>
    obtain ⟨hd, tl⟩ := List.pairwise_cons.mp h
    simp only [insertIn]
    split
    · rename_i hlt
      refine List.pairwise_cons.mpr ⟨fun x hx => ?_, h⟩
      rcases List.mem_cons.mp hx with rfl | hx
      · exact hlt
      · exact Std.TransCmp.lt_trans hlt (hd x hx)
    · rename_i heq
      have hk : k = a.1 := Std.LawfulEqOrd.eq_of_compare heq
      refine List.pairwise_cons.mpr ⟨fun x hx => ?_, tl⟩
      simpa [hk] using hd x hx
    · rename_i hgt
      refine List.pairwise_cons.mpr ⟨fun x hx => ?_, ih tl⟩
      rcases mem_insertIn hx with rfl | hx
      · exact Std.OrientedCmp.gt_iff_lt.mp hgt
      · exact hd x hx

def get? (t : Table κ ν) (k : κ) : Option ν := find k t.items

def contains (t : Table κ ν) (k : κ) : Bool := (t.get? k).isSome

def size (t : Table κ ν) : Nat := t.items.length

def isEmpty (t : Table κ ν) : Bool := t.items.isEmpty

def keys (t : Table κ ν) : List κ := t.items.map Prod.fst

/-- Take the entry of a key out. -/
def erase (t : Table κ ν) (k : κ) : Table κ ν :=
  ⟨t.items.filter fun e => compare k e.1 != .eq, t.ordered.filter _⟩

variable [Std.TransOrd κ] [Std.LawfulEqOrd κ]

def insert (t : Table κ ν) (k : κ) (v : ν) : Table κ ν :=
  ⟨insertIn k v t.items, insertIn_ordered k v t.ordered⟩

/-- Insert unless the key has a value. -/
def insertNew (t : Table κ ν) (k : κ) (v : ν) : Table κ ν :=
  if t.contains k then t else t.insert k v

/-- Insert entries in order; the last value of a key stays. -/
def ofList (entries : List (κ × ν)) : Table κ ν :=
  entries.foldl (fun t (k, v) => t.insert k v) ∅

end Table

end GmlLift
