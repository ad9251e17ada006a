import Mathlib.Data.List.Nodup
import Hierarchy.Proofs.MemberFlow

namespace Hierarchy

namespace MemberTable

theorem nodup_values (t : MemberTable) : t.values.Nodup := by
  have hkeys := t.nodup_keys
  rw [← t.map_key_values] at hkeys
  exact List.Nodup.of_map _ hkeys

theorem values_perm {t u : MemberTable} (h : ∀ k, t.get? k = u.get? k) : t.values.Perm u.values := by
  apply (List.perm_ext_iff_of_nodup t.nodup_values u.nodup_values).mpr
  intro m
  rw [mem_values_iff, mem_values_iff, h]

end MemberTable

namespace ResolvedType

variable {t : ResolvedType} {k : MemberKey} {m : VisibleMember}

theorem get?_methodTable_eq_some_iff :
    t.methodTable.get? k = some m ↔ m ∈ t.members.ofKind .method ∧ m.key = k := by
  have hfrom : t.methodTable.All (· ∈ t.members.ofKind .method) :=
    MemberTable.all_empty.putAll fun _ hm => hm
  constructor
  · exact fun hm => ⟨hfrom.of_get? hm, MemberTable.key_of_get? hm⟩
  · rintro ⟨hm, rfl⟩
    have hmem : m ∈ (t.members.ofKind .method).filter fun m' => m'.key = m.key := by simp [hm]
    have hget : t.methodTable.get? m.key = some (List.getLast _ (List.ne_nil_of_mem hmem)) := by
      rw [methodTable, MemberTable.get?_putAll, List.getLast?_eq_some_getLast, Option.some_or]
    -- The last member of the key is the only one.
    have hsame := (MemberTable.mem_ofKind_iff.mp (hfrom.of_get? hget)).1
    rw [MemberTable.key_of_get? hget, (MemberTable.mem_ofKind_iff.mp hm).1] at hsame
    rw [hget, hsame]

end ResolvedType

end Hierarchy
