namespace DerivativeParsing

/-!
# Counting what is left

Several descents end because something that is counted gets less with every step.  The
step takes one member out of the count and puts none in.
-/

/-- A test that passes fewer members, and fails one that the other passes, counts less. -/
theorem countP_lt_countP {α : Type} {members : List α} {fewer more : α → Bool} {member : α}
    (hMono : ∀ other ∈ members, fewer other = true → more other = true)
    (hMember : member ∈ members) (hFewer : fewer member = false)
    (hMore : more member = true) : members.countP fewer < members.countP more := by
  obtain ⟨front, back, rfl⟩ := List.append_of_mem hMember
  have hFront : front.countP fewer ≤ front.countP more :=
    List.countP_mono_left fun other hOther =>
      hMono other (List.mem_append_left _ hOther)
  have hBack : back.countP fewer ≤ back.countP more :=
    List.countP_mono_left fun other hOther =>
      hMono other (List.mem_append_right _ (List.mem_cons_of_mem _ hOther))
  rw [List.countP_append, List.countP_append, List.countP_cons, List.countP_cons, hFewer,
    hMore]
  simp only [Bool.false_eq_true, if_false, if_true]
  omega

end DerivativeParsing
