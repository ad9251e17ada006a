import Mathlib.Data.List.Induction
import Hierarchy.Proofs.MergeLaw
import Hierarchy.Hook

namespace Hierarchy

def MemberTable.owns (t : MemberTable) (owner : String) (k : MemberKey) : Bool :=
  (t.get? k).any fun m => m.isOwnedBy owner

namespace DocTag

def key (tag : DocTag) : MemberKey := .ofName tag.kind tag.name

/-- The announced member as the type called `owner` shows it, in the place of what it has replaced. -/
def shown (tag : DocTag) (d : Declaration) (owner : String) (replaced : Option VisibleMember) :
    VisibleMember :=
  ⟨tag.toMember d owner, replaced.toList⟩

variable (d : Declaration) (owner : String) (t : MemberTable) (tag : DocTag) (tags : List DocTag)
  (k : MemberKey)

@[simp]
theorem isOwnedBy_shown (replaced : Option VisibleMember) :
    (tag.shown d owner replaced).isOwnedBy owner = true := by
  simp [shown, toMember, Member.isOwnedBy, sameType_iff_ofName_eq]

theorem install_eq : install d owner t tag =
    if t.owns owner tag.key then t else t.put (tag.shown d owner (t.get? tag.key)) := by
  have hkey : (tag.toMember d owner).key = tag.key := rfl
  cases h : t.get? tag.key with
  | none => simp [install, hkey, MemberTable.owns, shown, h]
  | some installed => simp [install, hkey, MemberTable.owns, shown, h]

theorem get?_install : (install d owner t tag).get? k =
    if tag.key = k ∧ t.owns owner k = false then some (tag.shown d owner (t.get? k))
    else t.get? k := by
  rw [install_eq]
  by_cases hk : tag.key = k
  · subst hk
    cases howns : t.owns owner tag.key with
    | true => simp
    | false =>
      have hput := t.get?_put_self (tag.shown d owner (t.get? tag.key))
      rwa [if_neg Bool.false_ne_true, if_pos ⟨rfl, rfl⟩]
  · have hput := t.get?_put_of_ne (tag.shown d owner (t.get? tag.key)) hk
    cases howns : t.owns owner tag.key with
    | true => simp [hk]
    | false => simpa [hk] using hput

theorem keys_install : (install d owner t tag).keys =
    if tag.key ∈ t.keys then t.keys else t.keys ++ [tag.key] := by
  rw [install_eq]
  cases howns : t.owns owner tag.key with
  | true =>
    have hmem : tag.key ∈ t.keys := by
      rw [← OrderedMap.contains_iff_mem_keys, OrderedMap.contains]
      obtain ⟨m, hm, -⟩ := (Option.any_eq_true ..).mp howns
      simp [hm]
    simp [hmem]
  | false => exact t.keys_put (tag.shown d owner (t.get? tag.key))

/-- A member declared by the type stays, and any other key goes to the first tag that has it. -/
theorem get?_foldl_install : (tags.foldl (install d owner) t).get? k =
    if t.owns owner k then t.get? k
    else ((tags.find? fun tag => tag.key = k).map fun tag => tag.shown d owner (t.get? k)).or
      (t.get? k) := by
  induction tags generalizing t with
  | nil => simp
  | cons tag rest ih =>
    rw [List.foldl_cons, ih]
    have hstep := get?_install d owner t tag k
    by_cases hput : tag.key = k ∧ t.owns owner k = false
    · -- From here on the member just put counts as declared by the type.
      rw [if_pos hput] at hstep
      have howns : (install d owner t tag).owns owner k = true := by
        simp [MemberTable.owns, hstep]
      simp [howns, hstep, hput]
    · rw [if_neg hput] at hstep
      have howns : (install d owner t tag).owns owner k = t.owns owner k := by
        rw [MemberTable.owns, hstep, MemberTable.owns]
      rw [howns, hstep]
      cases h : t.owns owner k with
      | true => rfl
      | false =>
        have hk : ¬ tag.key = k := fun hk => hput ⟨hk, h⟩
        simp [hk]

theorem keys_foldl_install : (tags.foldl (install d owner) t).keys =
    t.keys ++ (tags.map key).eraseDups.filter fun k => k ∉ t.keys := by
  induction tags using List.reverseRecOn with
  | nil => simp
  | append_singleton tags tag ih =>
    rw [List.foldl_append, List.foldl_cons, List.foldl_nil, keys_install, ih, List.map_append,
      List.map_cons, List.map_nil, MemberTable.eraseDups_concat]
    by_cases hold : tag.key ∈ t.keys
    · by_cases htold : tag.key ∈ (tags.map key).eraseDups <;> simp [hold, htold]
    · by_cases htold : tag.key ∈ (tags.map key).eraseDups <;> simp [hold, htold]

theorem foldl_install_eq_self (h : ∀ tag ∈ tags, t.owns owner tag.key = true) :
    tags.foldl (install d owner) t = t := by
  induction tags with
  | nil => rfl
  | cons tag rest ih =>
    rw [List.foldl_cons, install_eq, if_pos (h tag List.mem_cons_self)]
    exact ih fun other hother => h other (List.mem_cons_of_mem _ hother)

theorem owns_foldl_install (htag : tag ∈ tags) :
    (tags.foldl (install d owner) t).owns owner tag.key = true := by
  rw [MemberTable.owns, get?_foldl_install]
  cases howns : t.owns owner tag.key with
  | true => simpa [MemberTable.owns] using howns
  | false =>
    have hfound : (tags.find? fun other => other.key = tag.key).isSome = true := by
      rw [List.find?_isSome]
      exact ⟨tag, htag, by simp⟩
    obtain ⟨first, hfirst⟩ := Option.isSome_iff_exists.mp hfound
    simp [hfirst]

end DocTag

namespace Declaration

def tags (d : Declaration) : List DocTag := (d.doc.map DocTag.ofComment).getD []

/-- Whether `t'` is `t` with the members that the doc comment of `d` announces. -/
structure Announces (d : Declaration) (t t' : ResolvedType) : Prop where
  own : ∀ k m, t.members.get? k = some m → m.isOwnedBy t.name = true →
    t'.members.get? k = some m
  /-- So does whatever stands under a key that no tag has. -/
  untold : ∀ k, (∀ tag ∈ d.tags, tag.key ≠ k) → t'.members.get? k = t.members.get? k
  /-- Under any other key stands the public member that the first tag of the key describes.  It is
  declared by the type, in the namespace and at the place of the declaration, and hides the one member
  that it has replaced. -/
  told : ∀ before tag after, d.tags = before ++ tag :: after → (∀ b ∈ before, b.key ≠ tag.key) →
    (∀ m, t.members.get? tag.key = some m → m.isOwnedBy t.name = false) →
    t'.members.get? tag.key = some
      { Member.ofName tag.kind tag.name with
        visibility := .everyone
        isStatic := tag.isStatic
        access := tag.access
        origin := ⟨d.origin.scope, some t.name⟩
        location := d.location
        doc := tag.description
        typeText := tag.typeText
        shadows := (t.members.get? tag.key).toList }
  /-- The keys of the type keep their places, and new ones follow in the order of their first tags. -/
  keys : t'.members.keys =
    t.members.keys ++ (d.tags.map DocTag.key).eraseDups.filter fun k => k ∉ t.members.keys
  rest : t' = { t with members := t'.members }

theorem announces_withDocTags (d : Declaration) (t : ResolvedType) :
    d.Announces t (t.withDocTags d) where
  own := by
    intro k m hm howned
    have howns : t.members.owns t.name k = true := by simp [MemberTable.owns, hm, howned]
    have hget := DocTag.get?_foldl_install d t.name t.members d.tags k
    rw [if_pos howns, hm] at hget
    exact hget
  untold := by
    intro k hk
    have hnone : d.tags.find? (fun tag => tag.key = k) = none := by simpa using hk
    have hget := DocTag.get?_foldl_install d t.name t.members d.tags k
    rw [hnone, Option.map_none, Option.none_or, ite_self] at hget
    exact hget
  told := by
    intro before tag after htags hfirst hforeign
    have hfound : d.tags.find? (fun other => other.key = tag.key) = some tag := by
      rw [htags, List.find?_append, List.find?_eq_none.mpr (by simpa using hfirst)]
      simp
    have howns : t.members.owns t.name tag.key = false := by
      cases hget : t.members.get? tag.key with
      | none => simp [MemberTable.owns, hget]
      | some m => simp [MemberTable.owns, hget, hforeign m hget]
    have hget := DocTag.get?_foldl_install d t.name t.members d.tags tag.key
    rw [howns, hfound] at hget
    exact hget
  keys := DocTag.keys_foldl_install d t.name t.members d.tags
  rest := rfl

end Declaration

theorem ResolvedType.withDocTags_withDocTags (t : ResolvedType) (d : Declaration) :
    (t.withDocTags d).withDocTags d = t.withDocTags d := by
  have hsame := DocTag.foldl_install_eq_self d t.name (t.withDocTags d).members d.tags fun tag htag =>
    DocTag.owns_foldl_install d t.name t.members tag d.tags htag
  show { t with members := d.tags.foldl (DocTag.install d t.name) (t.withDocTags d).members } = _
  rw [hsame]
  rfl

/-- The built-in hook completes on every type, adds the announced members and nothing else, and has
nothing left to do when it runs again. -/
theorem Hook.docTags_announces (d : Declaration) (t : ResolvedType) :
    ∃ t', Hook.docTags.run d t = ⟨[], t', none⟩ ∧ d.Announces t t' ∧
      Hook.docTags.run d t' = ⟨[], t', none⟩ := by
  refine ⟨t.withDocTags d, rfl, d.announces_withDocTags t, ?_⟩
  show HookResult.mk [] ((t.withDocTags d).withDocTags d) none = _
  rw [t.withDocTags_withDocTags d]

end Hierarchy
