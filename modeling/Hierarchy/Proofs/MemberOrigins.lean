import Hierarchy.Proofs.CodebaseEdits
import Hierarchy.Proofs.MemberFlow

namespace Hierarchy

open Relation

namespace Member

/-- Whether the member is `w` up to its name, its visibility and its declaring type. -/
def Copies (m w : Member) : Prop :=
  m = { w with
    name := m.name
    visibility := m.visibility
    origin := { w.origin with owner := m.origin.owner } }

theorem copies_self (m : Member) : m.Copies m := rfl

theorem Copies.relabelled {m w : Member} (h : m.Copies w) (name : String) (visibility : Visibility)
    (owner : Option String) :
    Copies { m with
      name := name
      visibility := visibility
      origin := { m.origin with owner := owner } } w := by
  unfold Copies at h ⊢
  rw [h]

end Member

namespace Source

variable {source : Source} {docTags : Bool} {k k' : TypeKey} {m : Member} {x : VisibleMember}

/-- Whether an alias of the first candidate for `k`, or for a type that can be reached from there,
gives a method this name. -/
def GivesName (source : Source) (k : TypeKey) (name : String) : Prop :=
  ∃ d, source.DeclaresBelow k d ∧ ∃ a ∈ d.aliases, a.newName = some name

/-- Whether the member copies one that the first candidate for `k`, or for a type that can be reached
from there, stands for, under the same name or, if it is a method, one that an alias gives. -/
def AccountsFor (source : Source) (docTags : Bool) (k : TypeKey) (m : Member) : Prop :=
  ∃ d w, source.DeclaresBelow k d ∧ w ∈ d.denoted docTags ∧ m.Copies w ∧
    (m.name = w.name ∨ m.kind = .method ∧ source.GivesName k m.name)

/-- Whether the declarations account for the member and for all that is hidden below it. -/
def AccountsThroughout (source : Source) (docTags : Bool) (k : TypeKey) (m : VisibleMember) : Prop :=
  ∀ x ∈ m :: m.overrides, source.AccountsFor docTags k x.toMember

theorem GivesName.of_reaches {name : String} (h : source.GivesName k' name)
    (hk : source.Reaches k k') : source.GivesName k name := by
  obtain ⟨d, hd, ha⟩ := h
  exact ⟨d, hd.of_reaches hk, ha⟩

theorem AccountsFor.of_reaches (h : source.AccountsFor docTags k' m) (hk : source.Reaches k k') :
    source.AccountsFor docTags k m := by
  obtain ⟨d, w, hd, hw, hcopies, hname⟩ := h
  exact ⟨d, w, hd.of_reaches hk, hw, hcopies, hname.imp_right (And.imp_right (·.of_reaches hk))⟩

theorem AccountsFor.adoptedBy (h : source.AccountsFor docTags k m) (owner : String) :
    source.AccountsFor docTags k (m.adoptedBy owner) := by
  obtain ⟨d, w, hd, hw, hcopies, hname⟩ := h
  exact ⟨d, w, hd, hw, hcopies.relabelled m.name m.visibility (some owner), hname⟩

theorem AccountsFor.claimedBy (h : source.AccountsFor docTags k m) (owner : String) :
    source.AccountsFor docTags k (m.claimedBy owner) := by
  unfold Member.claimedBy
  split
  · exact h.adoptedBy owner
  · exact h

theorem AccountsFor.copyOf {d : Declaration} {a : Alias} (h : source.AccountsFor docTags k x.toMember)
    (hd : source.DeclaresBelow k d) (ha : a ∈ d.aliases) (hkind : x.kind = .method) :
    source.AccountsFor docTags k (a.copyOf x).toMember := by
  obtain ⟨d', w, hd', hw, hcopies, hname⟩ := h
  refine ⟨d', w, hd', hw, hcopies.relabelled _ _ x.origin.owner, ?_⟩
  cases hnew : a.newName with
  | none => simpa [Alias.copyOf, hnew] using hname
  | some name => exact .inr ⟨hkind, d, hd, a, ha, by simp [Alias.copyOf, hnew]⟩

theorem carries_accountsThroughout {name : String} {d : Declaration} {others : List Declaration}
    (hsource : source name = .ok (d :: others)) :
    d.Carries docTags (source.AccountsThroughout docTags (.ofName name)) where
  denoted w hw := by
    have hself : source.AccountsFor docTags (.ofName name) w :=
      ⟨d, w, declaresBelow_self hsource, hw, w.copies_self, .inl rfl⟩
    intro x hx
    rw [VisibleMember.overrides_ofMember, List.mem_singleton] at hx
    rw [hx]
    exact hself.claimedBy d.name
  adopted m hm := by
    intro x hx
    rw [VisibleMember.overrides_adoptedBy] at hx
    rcases List.mem_cons.mp hx with rfl | hx
    · exact (hm m List.mem_cons_self).adoptedBy d.name
    · exact hm x (List.mem_cons_of_mem m hx)
  aliased a ha m hkey hm := by
    have hkind : m.kind = .method := congrArg MemberKey.kind hkey
    intro x hx
    rcases List.mem_cons.mp hx with rfl | hx
    · exact (hm m List.mem_cons_self).copyOf (declaresBelow_self hsource) ha hkind
    · exact hm x (List.mem_cons_of_mem m hx)
  shadowing m hidden _ hm hhidden := by
    intro x hx
    rw [VisibleMember.overrides_shadowing] at hx
    rcases List.mem_cons.mp hx with rfl | hx
    · exact hm m List.mem_cons_self
    · rcases List.mem_append.mp hx with hx | hx
      · exact hm x (List.mem_cons_of_mem m hx)
      · exact hhidden x hx

end Source

namespace Resolver

/-- Nothing that a type shows or hides is made up, be the type held by a cache, the answer to a request
or produced on the way to one. -/
theorem no_member_invented (settings : Settings) (es : List Codebase.Edit) (names : List String) :
    (Resolver.mk settings []).ShowsOnly (Codebase.afterEdits es).source names
      ((Codebase.afterEdits es).source.AccountsThroughout settings.docTags) :=
  showsOnly_of_carries (Codebase.keyed_source es)
    (fun _ _ _ hreach hm x hx => (hm x hx).of_reaches hreach)
    (fun _ _ _ hsource => Source.carries_accountsThroughout hsource) names

/-- A trait whose method hides one of a trait of its own; a class that copies the method under a second
name and announces a property that its parent spells out. -/
def borrowed : List Codebase.Edit :=
  [.put ⟨0⟩ [(Declaration.ofName .traitType "U").withMember (.ofName .method "run"),
    ((Declaration.ofName .traitType "T").withTrait "U").withMember (.ofName .method "Run"),
    (Declaration.ofName .classType "P").withMember (.ofName .property "id"),
    (((Declaration.ofName .classType "C").withParent "P").withUse
      ⟨"T", [⟨none, "RUN", some "walk", some .heirs⟩], []⟩).withDoc "@property-read int $id"]]

theorem no_member_invented_borrowed :
    let source := (Codebase.afterEdits borrowed).source
    ∃ t, standard.answer (standard.cacheAfter [⟨source, "T"⟩]) ⟨source, "C"⟩ = .ok (some t) ∧
      (t.members.values.map fun m => (m.name, m.access, m.visibility, m.shadows.map (·.name))) =
        [("Run", .readWrite, .everyone, ["run"]), ("walk", .readWrite, .heirs, ["run"]),
          ("id", .readOnly, .everyone, ["id"])] ∧
      t.MembersThroughout (source.AccountsThroughout true) := by
  intro source
  have hall := (no_member_invented .standard borrowed ["T"]).answered "C"
  have hshown : ((standard.answer (standard.cacheAfter [⟨source, "T"⟩])
      ⟨source, "C"⟩).toOption.join.map fun t =>
        t.members.values.map fun m => (m.name, m.access, m.visibility, m.shadows.map (·.name))) =
        some [("Run", .readWrite, .everyone, ["run"]), ("walk", .readWrite, .heirs, ["run"]),
          ("id", .readOnly, .everyone, ["id"])] := by
    decide +kernel
  obtain ⟨t, hanswer, hmembers⟩ := exists_type_of_seen hshown
  exact ⟨t, hanswer, hmembers, hall t hanswer⟩

end Resolver

end Hierarchy
