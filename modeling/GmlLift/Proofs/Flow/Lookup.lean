import GmlLift.Flow.Graph

/-! # Looking up blocks

Whatever a look-up by address or by neighbour finds is one of the graph's blocks, on any graph. The
search by address also finds every block there is to find, as long as blocks stand in address
order. -/
namespace GmlLift.Graph

variable {g : Graph}

theorem bisect_mem {address fuel : Nat} {range : List NodeId} {b : NodeId}
    (h : g.bisect address fuel range = some b) : b ∈ range ∧ (g.node b).start = address := by
  induction fuel generalizing range with
  | zero => cases h
  | succ fuel ih =>
    simp only [bisect] at h
    split at h
    · exact ⟨List.mem_of_find?_eq_some h, by simpa using List.find?_some h⟩
    · split at h
      · cases h
      · rename_i middle rest hd
        split at h
        · exact ⟨List.mem_of_mem_take (ih h).1, (ih h).2⟩
        · have hm := ih h
          rw [← hd] at hm
          exact ⟨List.mem_of_mem_drop hm.1, hm.2⟩

theorem blockAt?_mem {address : Nat} {b : NodeId} (h : g.blockAt? address = some b) :
    b ∈ g.blocks := (bisect_mem h).1

theorem blocksAfter_mem {n b : NodeId} (h : b ∈ g.blocksAfter n) : b ∈ g.blocks :=
  (List.dropWhile_suffix _).subset (List.mem_of_mem_drop h)

theorem nextBlock?_mem {n b : NodeId} (h : g.nextBlock? n = some b) : b ∈ g.blocks :=
  blocksAfter_mem (List.mem_of_head? h)

theorem blocksBefore_mem {n b : NodeId} (h : b ∈ g.blocksBefore n) : b ∈ g.blocks :=
  (List.takeWhile_prefix _).subset h

/-- Blocks in a list in strict address order. -/
def Ascending (g : Graph) (bs : List NodeId) : Prop :=
  bs.Pairwise fun a b => (g.node a).start < (g.node b).start

/-- Halving loses no block: of two halves in address order the one kept can alone hold the
address. -/
theorem bisect_complete {address fuel : Nat} {range : List NodeId} {b : NodeId}
    (hf : range.length < fuel) (ha : g.Ascending range) (hb : b ∈ range)
    (hs : (g.node b).start = address) : g.bisect address fuel range = some b := by
  induction fuel generalizing range with
  | zero => omega
  | succ fuel ih =>
    have hpos : 0 < range.length := List.length_pos_of_mem hb
    simp only [bisect]
    split
    · rename_i hhalf
      obtain ⟨a, rfl⟩ : ∃ a, range = [a] := List.length_eq_one_iff.mp (by omega)
      rw [List.mem_singleton] at hb
      subst hb
      simp [hs]
    · rename_i hhalf
      split
      · rename_i hd
        have : range.length ≤ range.length / 2 := by simpa using hd
        omega
      · rename_i middle rest hd
        have hsplit : range = range.take (range.length / 2) ++ middle :: rest := by
          rw [← hd, List.take_append_drop]
        have hord := ha
        rw [hsplit, Ascending, List.pairwise_append, List.pairwise_cons] at hord
        obtain ⟨_, ⟨hrest, _⟩, hcross⟩ := hord
        rw [hsplit] at hb
        split
        · rename_i hlt
          refine ih (by simp; omega) (ha.sublist (List.take_sublist ..)) ?_
          rcases List.mem_append.mp hb with hb | hb
          · exact (List.take_sublist_take_left (by omega)).subset hb
          · rcases List.mem_cons.mp hb with rfl | hb
            · omega
            · have := hrest b hb; omega
        · rename_i hge
          refine ih ?_ (hd ▸ ha.sublist (List.drop_sublist ..)) ?_
          · rw [← hd]; simp; omega
          · rcases List.mem_append.mp hb with hb | hb
            · have := hcross b hb middle (by simp); omega
            · exact hb

theorem blockAt?_eq_some_iff (h : g.Ascending g.blocks) {address : Nat} {b : NodeId} :
    g.blockAt? address = some b ↔ b ∈ g.blocks ∧ (g.node b).start = address :=
  ⟨bisect_mem, fun ⟨hb, hs⟩ => bisect_complete (Nat.lt_succ_self _) h hb hs⟩

end GmlLift.Graph
