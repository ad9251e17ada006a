import Hierarchy.Proofs.AssembledTypes
import Hierarchy.Proofs.DeclaredGraph
import Hierarchy.Proofs.MergeLaw
import Hierarchy.Proofs.ProducedTypes

namespace Hierarchy

open Relation

namespace MemberTable

variable {t : MemberTable} {p q : VisibleMember → Prop}

def All (t : MemberTable) (p : VisibleMember → Prop) : Prop := ∀ m ∈ t.values, p m

theorem all_empty : All .empty p := by
  intro m hm
  cases hm

theorem All.imp (h : t.All p) (hpq : ∀ m, p m → q m) : t.All q := fun m hm => hpq m (h m hm)

theorem All.of_get? (h : t.All p) {k : MemberKey} {m : VisibleMember} (hm : t.get? k = some m) :
    p m := by
  apply h m
  rw [mem_values_iff, key_of_get? hm]
  exact hm

theorem All.of_mem_ofKind (h : t.All p) {kind : MemberKind} {m : VisibleMember}
    (hm : m ∈ t.ofKind kind) : p m :=
  h.of_get? (mem_ofKind_iff.mp hm).1

theorem All.put (h : t.All p) {m : VisibleMember} (hm : p m) : (t.put m).All p := by
  intro x hx
  rw [mem_values_iff] at hx
  by_cases hkey : m.key = x.key
  · rw [← hkey, get?_put_self] at hx
    exact Option.some.inj hx ▸ hm
  · rw [t.get?_put_of_ne m hkey] at hx
    exact h.of_get? hx

theorem All.putAll (h : t.All p) {ms : List VisibleMember} (hms : ∀ m ∈ ms, p m) :
    (t.putAll ms).All p :=
  List.foldlRecOn (motive := fun t => All t p) ms MemberTable.put h
    fun _ ht m hm => ht.put (hms m hm)

theorem All.erase (h : t.All p) (k : MemberKey) : (t.erase k).All p := by
  intro x hx
  rw [mem_values_iff, MemberTable.get?_erase] at hx
  split at hx
  · cases hx
  · exact h.of_get? hx

theorem All.offer (h : t.All p)
    (hshadowing : ∀ m x : VisibleMember, x.key = m.key → p m → p x → p (m.shadowing x))
    (owner : String) {m : VisibleMember} (hm : p m) : (t.offer owner m).All p := by
  intro x hx
  rw [mem_values_iff, get?_offer] at hx
  split at hx
  · rename_i hkey
    cases hget : t.get? x.key with
    | none =>
      rw [hget] at hx
      exact Option.some.inj hx ▸ hm
    | some shown =>
      have hshown : p shown := h.of_get? hget
      have hsame : m.key = shown.key := hkey.trans (key_of_get? hget).symm
      rw [hget] at hx
      rw [← Option.some.inj hx]
      split
      · exact hshadowing shown m hsame hshown hm
      · exact hshown
  · exact h.of_get? hx

end MemberTable

namespace Declaration

def announced (d : Declaration) : List Member :=
  ((d.doc.map DocTag.ofComment).getD []).map fun tag => tag.toMember d d.name

/-- The members that the declaration stands for: those of its body and, if doc tags count, those
announced. -/
def denoted (d : Declaration) (docTags : Bool) : List Member :=
  d.members ++ if docTags then d.announced else []

/-- Whether `p` holds of the members that `d` stands for and is kept by all that is done to members on
their way into the type of `d`. -/
structure Carries (d : Declaration) (docTags : Bool) (p : VisibleMember → Prop) : Prop where
  denoted : ∀ w ∈ d.denoted docTags, p (.ofMember (w.claimedBy d.name))
  adopted : ∀ m, p m → p (m.adoptedBy d.name)
  aliased : ∀ a ∈ d.aliases, ∀ m : VisibleMember, m.key = .method a.method → p m → p (a.copyOf m)
  shadowing : ∀ m x : VisibleMember, x.key = m.key → p m → p x → p (m.shadowing x)

variable {d : Declaration} {docTags : Bool} {p : VisibleMember → Prop} {t : ResolvedType}

theorem Carries.bodyMembers (h : d.Carries docTags p) : d.bodyMembers.All p := by
  refine MemberTable.all_empty.putAll fun m hm => ?_
  obtain ⟨w, hw, rfl⟩ := List.mem_map.mp hm
  exact h.denoted w (List.mem_append_left _ hw)

theorem Carries.alias_apply (h : d.Carries docTags p) {a : Alias} (ha : a ∈ d.aliases)
    (trait : String) {methods : MemberTable} (hmethods : methods.All p) :
    (a.apply trait methods).All p := by
  unfold Alias.apply
  split
  · split
    · rename_i m hm
      have hkey := MemberTable.key_of_get? hm
      exact hmethods.put (h.aliased a ha m hkey (hmethods.of_get? hm))
    · exact hmethods
  · exact hmethods

theorem Carries.contributions (h : d.Carries docTags p) {trait : ResolvedType}
    (htrait : trait.members.All p) : ∀ m ∈ d.contributions trait d.name, p m := by
  have hmethods : trait.methodTable.All p :=
    MemberTable.all_empty.putAll fun m hm => htrait.of_mem_ofKind hm
  have haliased : (d.aliasedTable trait).All p :=
    List.foldlRecOn (motive := fun t => MemberTable.All t p) d.aliases _ hmethods
      fun _ ht a ha => h.alias_apply ha trait.name ht
  have hadapted : (d.adaptedTable trait).All p := by
    refine List.foldlRecOn (motive := fun t => MemberTable.All t p) d.exclusions _ haliased ?_
    intro methods ht x _
    unfold Exclusion.apply
    split
    · exact ht.erase _
    · exact ht
  intro m hm
  obtain ⟨m', hm', rfl⟩ := List.mem_map.mp hm
  exact h.adopted m' (hadapted m' hm')

theorem all_of_mem_passedOn {super : ResolvedType} (hsuper : super.members.All p)
    {kinds : List MemberKind} {m : VisibleMember} (hm : m ∈ super.passedOn kinds) : p m := by
  obtain ⟨kind, -, hm⟩ := List.mem_flatMap.mp hm
  exact hsuper.of_mem_ofKind (List.mem_filter.mp hm).1

theorem Carries.mergedMembers (h : d.Carries docTags p) (hname : t.name = d.name)
    (hlinks : ∀ s, t.Links s → s.members.All p) : (t.mergedMembers d).All p := by
  have hoffers : ∀ m ∈ t.offers d, p m := by
    intro m hm
    rcases List.mem_append.mp hm with hm | hm
    · rcases List.mem_append.mp hm with hm | hm
      · obtain ⟨trait, htrait, hm⟩ := List.mem_flatMap.mp hm
        have hall := hlinks trait (.inr (.inr htrait))
        unfold ResolvedType.brought at hm
        rw [hname] at hm
        rcases List.mem_append.mp hm with hm | hm
        · obtain ⟨m', hm', rfl⟩ := List.mem_map.mp hm
          exact h.adopted m' (hall.of_mem_ofKind hm')
        · exact h.contributions hall m hm
      · obtain ⟨parent, hparent, hm⟩ := List.mem_flatMap.mp hm
        exact all_of_mem_passedOn (hlinks parent (.inl (Option.mem_toList.mp hparent))) hm
    · obtain ⟨interface, hinterface, hm⟩ := List.mem_flatMap.mp hm
      exact all_of_mem_passedOn (hlinks interface (.inr (.inl hinterface))) hm
  rw [ResolvedType.mergedMembers_eq_offerAll]
  exact List.foldlRecOn (motive := fun t => MemberTable.All t p) (t.offers d) _ h.bodyMembers
    fun _ ht m hm => ht.offer h.shadowing t.name (hoffers m hm)

theorem Carries.withDocTags (h : d.Carries true p) (hname : t.name = d.name)
    (ht : t.members.All p) : (t.withDocTags d).members.All p := by
  refine List.foldlRecOn (motive := fun t => MemberTable.All t p)
    ((d.doc.map DocTag.ofComment).getD []) _ ht fun table htable tag htag => ?_
  have htold : p (.ofMember (tag.toMember d d.name)) :=
    h.denoted _ (List.mem_append_right _ (List.mem_map_of_mem htag))
  rw [DocTag.install, hname]
  split
  · exact htable.put htold
  · rename_i installed hinstalled
    have hkey := MemberTable.key_of_get? hinstalled
    split
    · exact htable
    · exact htable.put (h.shadowing _ installed hkey htold (htable.of_get? hinstalled))

theorem Carries.assemble {settings : Settings} {supers : Supertypes}
    (h : d.Carries settings.docTags p)
    (hlinks : ∀ s, (d.mergedType supers).Links s → s.members.All p) :
    (d.assemble (Resolver.mk settings []).allHooks supers).type.members.All p := by
  have hmerged : (d.mergedType supers).members.All p := h.mergedMembers rfl hlinks
  refine (d.runHooks_induct (p := fun t => t.name = d.name ∧ t.members.All p)
    (fun hook hmem t t' hrun ht => ?_) ⟨rfl, hmerged⟩).2
  simp only [Resolver.allHooks, List.append_nil] at hmem
  split at hmem
  · rename_i hon
    rw [List.mem_singleton.mp hmem] at hrun
    cases hrun
    rw [hon] at h
    exact ⟨ht.1, h.withDocTags ht.1 ht.2⟩
  · cases hmem

end Declaration

namespace ResolvedType

/-- Whether every member of `t`, and of the types that occur in it, satisfies `p` for the key of the
type that shows it. -/
def MembersThroughout (t : ResolvedType) (p : TypeKey → VisibleMember → Prop) : Prop :=
  ∀ w, ReflTransGen Links t w → ∀ m ∈ w.members.values, p w.key m

/-- Whether `t` has the key `k` and the types that occur in it can be reached from there and have
tables of members that satisfy `p`. -/
structure FilledWith (source : Source) (p : TypeKey → VisibleMember → Prop) (k : TypeKey)
    (t : ResolvedType) : Prop where
  key_eq : t.key = k
  reaches : ∀ w, ReflTransGen Links t w → source.Reaches k w.key
  all : ∀ w, ReflTransGen Links t w → w.members.All (p w.key)

theorem FilledWith.membersThroughout {source : Source} {p : TypeKey → VisibleMember → Prop}
    {k : TypeKey} {t : ResolvedType} (h : FilledWith source p k t) : t.MembersThroughout p :=
  fun w hw => h.all w hw

end ResolvedType

namespace Resolver

variable {settings : Settings} {source : Source} {p : TypeKey → VisibleMember → Prop}

/-- A type is filled with what the types it is put together from are filled with, and with what its
declaration stands for. -/
theorem handsOn_filledWith (hkeyed : source.Keyed)
    (hup : ∀ k k' m, source.Reaches k k' → p k' m → p k m)
    (hcarries : ∀ name d others, source name = .ok (d :: others) →
      d.Carries settings.docTags (p (.ofName name))) :
    (Resolver.mk settings []).HandsOn source.supplier (ResolvedType.FilledWith source p) := by
  rintro name d others hsource parents interfaces traits hparents hinterfaces htraits hanswers
  replace hsource : source name = .ok (d :: others) := hsource.symm
  have hshape := d.sameShape_assemble (forall_allHooks (r := Resolver.mk settings []) (by simp))
    (.ofAnswers (parents.map Prod.snd) (interfaces.map Prod.snd) (traits.map Prod.snd))
  have hkey : d.key = .ofName name := hkeyed name _ hsource d List.mem_cons_self
  -- Whatever the type is linked to was found below one of its edges.
  have hbelow (s : ResolvedType) (hs : (d.mergedType (.ofAnswers (parents.map Prod.snd)
      (interfaces.map Prod.snd) (traits.map Prod.snd))).Links s) (w : ResolvedType)
      (hw : ReflTransGen ResolvedType.Links s w) :
      source.Reaches (.ofName name) w.key ∧ w.members.All (p w.key) := by
    obtain ⟨t, ht, hts⟩ := Declaration.exists_answer_of_links hs
    rw [← List.map_append, ← List.map_append] at ht
    obtain ⟨a, ha, hat⟩ := List.mem_map.mp ht
    have htarget : a.1 ∈ d.supertypeNames := by
      rw [Declaration.supertypeNames, ← hparents, ← hinterfaces, ← htraits, ← List.map_append,
        ← List.map_append]
      exact List.mem_map_of_mem ha
    have hfilled := hanswers a ha t hat
    exact ⟨.head (Source.leads_of_mem hsource htarget) (hfilled.reaches w (hts.trans hw)),
      hfilled.all w (hts.trans hw)⟩
  have htable := (hcarries name d others hsource).assemble fun s hs =>
    (hbelow s hs s .refl).2.imp fun m hm => hup _ _ m (hbelow s hs s .refl).1 hm
  have htype := hshape.key_eq.trans hkey
  refine ⟨htype, fun w hw => ?_, fun w hw => ?_⟩
  · rcases ReflTransGen.cases_head hw with rfl | ⟨s, hs, hw⟩
    · rw [htype]
    · exact (hbelow s ((hshape.links_iff s).mp hs) w hw).1
  · rcases ReflTransGen.cases_head hw with rfl | ⟨s, hs, hw⟩
    · rw [htype]
      exact htable
    · exact (hbelow s ((hshape.links_iff s).mp hs) w hw).2

/-- Whether every type that a resolver comes to show over a source, after requests for `names` on a
cache that was empty at first, has members that satisfy `p`. -/
structure ShowsOnly (r : Resolver) (source : Source) (names : List String)
    (p : TypeKey → VisibleMember → Prop) : Prop where
  held : ∀ k t, (r.cacheAfter (names.map (Request.mk source))).slots.get? k =
    some (.done (some t)) → t.MembersThroughout p
  answered : ∀ asked t, r.answer (r.cacheAfter (names.map (Request.mk source))) ⟨source, asked⟩ =
    .ok (some t) → t.MembersThroughout p
  /-- The types that are put together on the way, whether or not they are kept. -/
  produced : ∀ asked name t, r.Produces source.supplier
    (r.cacheAfter (names.map (Request.mk source))) asked name t → t.MembersThroughout p

/-- A property of members that declarations carry holds of all members that are ever shown. -/
theorem showsOnly_of_carries (hkeyed : source.Keyed)
    (hup : ∀ k k' m, source.Reaches k k' → p k' m → p k m)
    (hcarries : ∀ name d others, source name = .ok (d :: others) →
      d.Carries settings.docTags (p (.ofName name))) (names : List String) :
    (Resolver.mk settings []).ShowsOnly source names p := by
  let r : Resolver := ⟨settings, []⟩
  let c := r.cacheAfter (names.map (Request.mk source))
  have hreached : r.Reached source.supplier c := by
    refine reached_cacheAfter _ fun q hq => ?_
    obtain ⟨name, -, rfl⟩ := List.mem_map.mp hq
    exact source.within_supplier
  have hhands := handsOn_filledWith hkeyed hup hcarries
  have hheld := hreached.holds hhands
  have hproduced (asked name : String) (t : ResolvedType)
      (ht : r.Produces source.supplier c asked name t) : t.MembersThroughout p :=
    (holds_of_produces hhands hheld ht).membersThroughout
  refine ⟨fun k t ht => (hheld k t ht).membersThroughout, fun asked t ht => ?_, hproduced⟩
  have hends : (r.request asked c).MayEnd source.supplier (r.answer c ⟨source, asked⟩, _) :=
    Inquiry.mayEnd_run source.within_supplier (r.request asked c)
  rw [ht] at hends
  exact hproduced asked asked t (produces_of_request hends)

end Resolver

end Hierarchy
