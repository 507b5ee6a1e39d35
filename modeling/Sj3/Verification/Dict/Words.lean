import Sj3.Verification.Dict.Found

/-! # The words a look-up finds

Looking up an input in a well-formed dictionary finds the stored words whose reading starts it,
no matter how the words are spread over segments and blocks. -/

namespace Sj3

theorem DouonBlk.yomi_of_mem {t : DouonBlk} {e : Entry} (h : e ∈ t.entries) : e.yomi = t.yomi := by
  obtain ⟨b, -, he⟩ := List.mem_flatMap.mp h
  obtain ⟨k, -, rfl⟩ := List.mem_map.mp he
  rfl

end Sj3
