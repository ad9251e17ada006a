import Hierarchy.Proofs.KeyedTables

namespace Hierarchy

namespace Alias

variable {a : Alias} {as : List Alias} {trait : String} {t : MemberTable} {k : MemberKey}

def targetKey (a : Alias) : MemberKey := .method (a.newName.getD a.method)

/-- Whether the alias asks for a copy under this key of a method of the trait called `trait`. -/
def Writes (a : Alias) (trait : String) (k : MemberKey) : Prop :=
  a.targets trait = true ∧ a.targetKey = k

instance (a : Alias) (trait : String) (k : MemberKey) : Decidable (a.Writes trait k) :=
  inferInstanceAs (Decidable (_ ∧ _))

theorem key_copyOf_eq {m : VisibleMember} (h : m.key = .method a.method) :
    (a.copyOf m).key = a.targetKey := by
  have hkind : m.kind = .method := congrArg MemberKey.kind h
  cases hname : a.newName with
  | none => simpa [copyOf, targetKey, Member.key, hname] using h
  | some name => simp [copyOf, targetKey, Member.key, MemberKey.method, hname, hkind]

theorem get?_apply (trait : String) (t : MemberTable) (a : Alias) (k : MemberKey) :
    (a.apply trait t).get? k =
      if a.Writes trait k then ((t.get? (.method a.method)).map a.copyOf).or (t.get? k)
      else t.get? k := by
  unfold apply
  by_cases htargets : a.targets trait = true
  · cases hget : t.get? (.method a.method) with
    | none => simp [htargets]
    | some m =>
      have hkey : (a.copyOf m).key = a.targetKey := key_copyOf_eq (MemberTable.key_of_get? hget)
      by_cases hk : a.targetKey = k
      · subst hk
        simp [Writes, htargets, ← hkey]
      · simp [Writes, htargets, hk, MemberTable.get?_put_of_ne t _ (hkey ▸ hk)]
  · simp [Writes, htargets]

theorem get?_apply_of_not (ha : a.finds trait t = true → a.targetKey ≠ k) :
    (a.apply trait t).get? k = t.get? k := by
  rw [get?_apply]
  by_cases hwrites : a.Writes trait k
  · rw [if_pos hwrites]
    cases hget : t.get? (.method a.method) with
    | none => rfl
    | some m =>
      have hfinds : a.finds trait t = true := by
        simp [finds, hwrites.1, OrderedMap.contains, hget]
      exact absurd hwrites.2 (ha hfinds)
  · rw [if_neg hwrites]

/-- Whether one of the aliases, applied one after another to the methods of the trait called `trait`,
finds its method when its turn comes and writes its copy under `k`. -/
def Overwrite (as : List Alias) (trait : String) (t : MemberTable) (k : MemberKey) : Prop :=
  ∃ before a after, as = before ++ a :: after ∧
    a.finds trait (before.foldl (apply trait) t) = true ∧ a.targetKey = k

theorem get?_foldl_of_not_overwrite (hk : ¬ Overwrite as trait t k) :
    (as.foldl (apply trait) t).get? k = t.get? k := by
  induction as generalizing t with
  | nil => rfl
  | cons a rest ih =>
    have hfirst : (a.apply trait t).get? k = t.get? k := by
      apply get?_apply_of_not
      intro hfinds hkey
      exact hk ⟨[], a, rest, rfl, hfinds, hkey⟩
    have hrest : ¬ Overwrite rest trait (a.apply trait t) k := by
      rintro ⟨before, b, after, rfl, hfinds, hkey⟩
      exact hk ⟨a :: before, b, after, rfl, hfinds, hkey⟩
    rw [List.foldl_cons, ih hrest, hfirst]

theorem get?_foldl_of_forall_not (hk : ∀ a ∈ as, ¬ a.Writes trait k) :
    (as.foldl (apply trait) t).get? k = t.get? k := by
  apply get?_foldl_of_not_overwrite
  rintro ⟨before, a, after, rfl, hfinds, hkey⟩
  have htargets : a.targets trait = true := ((Bool.and_eq_true ..).mp hfinds).1
  exact hk a (by simp) ⟨htargets, hkey⟩

/-- The last alias to write a key copies what its source has become by then. -/
theorem get?_foldl_of_last {before after : List Alias} (ha : a.Writes trait k)
    (hafter : ∀ b ∈ after, ¬ b.Writes trait k) :
    ((before ++ a :: after).foldl (apply trait) t).get? k =
      (((before.foldl (apply trait) t).get? (.method a.method)).map a.copyOf).or
        ((before.foldl (apply trait) t).get? k) := by
  rw [List.foldl_append, List.foldl_cons, get?_foldl_of_forall_not hafter, get?_apply, if_pos ha]

end Alias

namespace Exclusion

theorem get?_foldl (trait : String) (xs : List Exclusion) (t : MemberTable) (k : MemberKey) :
    (xs.foldl (apply trait) t).get? k =
      if ∃ x ∈ xs, x.drops trait = true ∧ .method x.method = k then none else t.get? k := by
  induction xs generalizing t with
  | nil => simp
  | cons x rest ih =>
    rw [List.foldl_cons, ih]
    by_cases hrest : ∃ x ∈ rest, x.drops trait = true ∧ .method x.method = k
    · simp [hrest]
    · by_cases hx : x.drops trait = true
      · by_cases hk : .method x.method = k
        · simp [apply, hx, hk, MemberTable.get?_erase]
        · simp [apply, hx, hk, MemberTable.get?_erase, hrest]
      · simp [apply, hx, hrest]

end Exclusion

namespace Declaration

variable {d : Declaration} {trait : ResolvedType} {consumer : String} {m : VisibleMember}
  {k : MemberKey}

/-- Whether an exclusion takes the method with this key from the trait called `trait`. -/
def Excludes (d : Declaration) (trait : String) (k : MemberKey) : Prop :=
  ∃ x ∈ d.exclusions, x.drops trait = true ∧ .method x.method = k

theorem get?_adaptedTable_eq_some_iff :
    (d.adaptedTable trait).get? k = some m ↔
      ¬ d.Excludes trait.name k ∧ (d.aliasedTable trait).get? k = some m := by
  rw [adaptedTable, Exclusion.get?_foldl]
  by_cases hk : d.Excludes trait.name k
  · simp [show ∃ x ∈ d.exclusions, _ from hk, hk]
  · simp [show ¬ ∃ x ∈ d.exclusions, _ from hk, hk]

theorem mem_contributions_iff : m ∈ d.contributions trait consumer ↔
    ∃ own, (d.adaptedTable trait).get? own.key = some own ∧ own.adoptedBy consumer = m := by
  simp only [contributions, List.mem_map, MemberTable.mem_values_iff]

theorem map_key_contributions (d : Declaration) (trait : ResolvedType) (consumer : String) :
    (d.contributions trait consumer).map (fun m => m.key) = (d.adaptedTable trait).keys := by
  rw [contributions, List.map_map, ← (d.adaptedTable trait).map_key_values]
  rfl

/-- Whether the members are what the trait brings to the type called `consumer`, adapted as `d`
asks. -/
structure ContributesLawfully (d : Declaration) (trait : ResolvedType) (consumer : String)
    (contributed : List VisibleMember) : Prop where
  nodup : (contributed.map fun m => m.key).Nodup
  owner : ∀ m ∈ contributed, m.origin.owner = some consumer
  not_excluded : ∀ m ∈ contributed, ¬ d.Excludes trait.name m.key
  /-- Every key is that of a method of the trait or is written by an alias. -/
  traced : ∀ m ∈ contributed, (∃ own ∈ trait.members.ofKind .method, own.key = m.key) ∨
    ∃ a ∈ d.aliases, a.Writes trait.name m.key
  /-- A method that is neither excluded nor written over is contributed as it is. -/
  kept : ∀ own ∈ trait.members.ofKind .method, ¬ d.Excludes trait.name own.key →
    (∀ a ∈ d.aliases, ¬ a.Writes trait.name own.key) →
    { own with origin := { own.origin with owner := some consumer } } ∈ contributed
  /-- An alias contributes a copy of the trait's method under its target key, unless an alias before it
  writes the key that it reads, or one after it writes the key that it writes. -/
  copied : ∀ before a after, d.aliases = before ++ a :: after → a.targets trait.name = true →
    ∀ own ∈ trait.members.ofKind .method, own.key = .method a.method →
    (∀ b ∈ before, ¬ b.Writes trait.name (.method a.method)) →
    ¬ d.Excludes trait.name a.targetKey → (∀ b ∈ after, ¬ b.Writes trait.name a.targetKey) →
    ∃ m ∈ contributed, m.key = a.targetKey ∧
      m = { own with
        name := a.newName.getD own.name
        visibility := a.newVisibility.getD own.visibility
        origin := { own.origin with owner := some consumer } }

/-- What a trait contributes under the aliases and exclusions of a declaration. -/
theorem contributions_lawful (d : Declaration) (trait : ResolvedType) (consumer : String) :
    d.ContributesLawfully trait consumer (d.contributions trait consumer) where
  nodup := by
    rw [map_key_contributions]
    exact (d.adaptedTable trait).nodup_keys
  owner := by
    intro m hm
    obtain ⟨own, -, rfl⟩ := mem_contributions_iff.mp hm
    rfl
  not_excluded := by
    intro m hm
    obtain ⟨own, hget, rfl⟩ := mem_contributions_iff.mp hm
    exact (get?_adaptedTable_eq_some_iff.mp hget).1
  traced := by
    intro m hm
    obtain ⟨own, hget, rfl⟩ := mem_contributions_iff.mp hm
    have haliased := (get?_adaptedTable_eq_some_iff.mp hget).2
    by_cases hwritten : ∃ a ∈ d.aliases, a.Writes trait.name own.key
    · exact .inr hwritten
    · rw [aliasedTable, Alias.get?_foldl_of_forall_not (by simpa using hwritten),
        ResolvedType.get?_methodTable_eq_some_iff] at haliased
      exact .inl ⟨own, haliased⟩
  kept := by
    intro own hown hexcluded hwritten
    have hget : (d.aliasedTable trait).get? own.key = some own := by
      rw [aliasedTable, Alias.get?_foldl_of_forall_not hwritten]
      exact ResolvedType.get?_methodTable_eq_some_iff.mpr ⟨hown, rfl⟩
    exact mem_contributions_iff.mpr ⟨own, get?_adaptedTable_eq_some_iff.mpr ⟨hexcluded, hget⟩, rfl⟩
  copied := by
    intro before a after haliases htargets own hown hkey hbefore hexcluded hafter
    -- The source has not been written before, so the alias finds the trait's own method there.
    have hsource : (before.foldl (Alias.apply trait.name) trait.methodTable).get? (.method a.method) =
        some own := by
      rw [Alias.get?_foldl_of_forall_not hbefore]
      exact ResolvedType.get?_methodTable_eq_some_iff.mpr ⟨hown, hkey⟩
    have hcopy : (a.copyOf own).key = a.targetKey := Alias.key_copyOf_eq hkey
    have hget : (d.aliasedTable trait).get? (a.copyOf own).key = some (a.copyOf own) := by
      rw [hcopy, aliasedTable, haliases, Alias.get?_foldl_of_last ⟨htargets, rfl⟩ hafter, hsource]
      rfl
    refine ⟨(a.copyOf own).adoptedBy consumer, ?_, hcopy, rfl⟩
    apply mem_contributions_iff.mpr
    exact ⟨_, get?_adaptedTable_eq_some_iff.mpr ⟨hcopy ▸ hexcluded, hget⟩, rfl⟩

def worker : ResolvedType :=
  { (Declaration.ofName .traitType "Worker").bareType with
    members := MemberTable.putAll .empty
      [.ofMember (.ofName .method "run"), .ofMember (.ofName .method "stop")] }

def choosy : Declaration :=
  (Declaration.ofName .classType "Choosy").withUse ⟨"worker",
    [⟨none, "Run", none, some .owner⟩, ⟨some "\\Worker", "stop", some "halt", none⟩],
    [⟨some "Other", "Stop", ["WORKER"]⟩]⟩

theorem contributions_lawful_choosy :
    (choosy.contributions worker "Choosy").map (fun m => (m.name, m.visibility)) =
        [("run", .owner), ("halt", .everyone)] ∧
      choosy.ContributesLawfully worker "Choosy" (choosy.contributions worker "Choosy") :=
  ⟨by decide +kernel, contributions_lawful choosy worker "Choosy"⟩

end Declaration

namespace Alias

variable {a : Alias} {as : List Alias} {trait : String} {t : MemberTable} {k : MemberKey}

/-- Whether no two aliases write one key of the trait and none reads what another writes. -/
structure Apart (as : List Alias) (trait : String) : Prop where
  nodup : ((as.filter fun a => a.targets trait).map targetKey).Nodup
  unread : ∀ a ∈ as, ∀ b ∈ as, a.targets trait = true → b ≠ a → ¬ b.Writes trait (.method a.method)

theorem Apart.of_perm {as' : List Alias} (h : Apart as trait) (hperm : as'.Perm as) :
    Apart as' trait where
  nodup := ((hperm.filter _).map targetKey).nodup_iff.mpr h.nodup
  unread := fun a ha b hb => h.unread a (hperm.mem_iff.mp ha) b (hperm.mem_iff.mp hb)

/-- Aliases that keep apart all copy the methods of the table that they start from. -/
theorem Apart.get?_foldl (h : Apart as trait) (ha : a ∈ as) (hk : a.Writes trait k) :
    (as.foldl (apply trait) t).get? k =
      ((t.get? (.method a.method)).map a.copyOf).or (t.get? k) := by
  obtain ⟨before, after, rfl⟩ := List.append_of_mem ha
  have honly : ∀ b ∈ before ++ after, ¬ b.Writes trait k := by
    intro b hb hwrites
    have hnodup := h.nodup
    rw [List.filter_append, List.filter_cons, if_pos hk.1, List.map_append, List.map_cons,
      List.nodup_middle, ← List.map_append, ← List.filter_append, List.nodup_cons] at hnodup
    apply hnodup.1
    rw [hk.2, ← hwrites.2]
    exact List.mem_map_of_mem (List.mem_filter.mpr ⟨hb, hwrites.1⟩)
  have hsource : ∀ b ∈ before, ¬ b.Writes trait (.method a.method) := by
    intro b hb
    apply h.unread a ha b (List.mem_append_left _ hb) hk.1
    rintro rfl
    exact honly b (List.mem_append_left _ hb) hk
  rw [get?_foldl_of_last hk fun b hb => honly b (List.mem_append_right _ hb),
    get?_foldl_of_forall_not hsource,
    get?_foldl_of_forall_not fun b hb => honly b (List.mem_append_left _ hb)]

theorem Apart.get?_foldl_perm {as' : List Alias} (h : Apart as trait) (hperm : as'.Perm as)
    (t : MemberTable) (k : MemberKey) :
    (as'.foldl (apply trait) t).get? k = (as.foldl (apply trait) t).get? k := by
  by_cases hwritten : ∃ a ∈ as, a.Writes trait k
  · obtain ⟨a, ha, hk⟩ := hwritten
    rw [h.get?_foldl ha hk, (h.of_perm hperm).get?_foldl (hperm.mem_iff.mpr ha) hk]
  · have hnone : ∀ a ∈ as, ¬ a.Writes trait k := by simpa using hwritten
    rw [get?_foldl_of_forall_not hnone,
      get?_foldl_of_forall_not fun a ha => hnone a (hperm.mem_iff.mp ha)]

end Alias

namespace Declaration

/-- Aliases that write different keys and do not read what others write can be given in any order: the
same members are contributed. -/
theorem contributions_perm (d d' : Declaration) (trait : ResolvedType) (consumer : String)
    (haliases : d'.aliases.Perm d.aliases) (hexclusions : d'.exclusions = d.exclusions)
    (hapart : Alias.Apart d.aliases trait.name) :
    (d'.contributions trait consumer).Perm (d.contributions trait consumer) := by
  apply List.Perm.map
  apply MemberTable.values_perm
  intro k
  rw [adaptedTable, adaptedTable, hexclusions, Exclusion.get?_foldl, Exclusion.get?_foldl,
    aliasedTable, aliasedTable, hapart.get?_foldl_perm haliases]

def choosyBackwards : Declaration :=
  (Declaration.ofName .classType "Choosy").withUse ⟨"worker",
    [⟨some "\\Worker", "stop", some "halt", none⟩, ⟨none, "Run", none, some .owner⟩],
    [⟨some "Other", "Stop", ["WORKER"]⟩]⟩

theorem contributions_perm_choosy :
    Alias.Apart choosy.aliases worker.name ∧
      (choosyBackwards.contributions worker "Choosy").Perm (choosy.contributions worker "Choosy") := by
  have hapart : Alias.Apart choosy.aliases worker.name := ⟨by decide +kernel, by decide +kernel⟩
  exact ⟨hapart, contributions_perm choosy choosyBackwards worker "Choosy" (by decide) rfl hapart⟩

def hidesFirst : Declaration :=
  (Declaration.ofName .classType "C").withUse ⟨"Worker",
    [⟨none, "run", none, some .owner⟩, ⟨none, "run", some "walk", none⟩], []⟩

def copiesFirst : Declaration :=
  (Declaration.ofName .classType "C").withUse ⟨"Worker",
    [⟨none, "run", some "walk", none⟩, ⟨none, "run", none, some .owner⟩], []⟩

/-- That the keys written are different is not enough: the copy is hidden in one case and not in the
other, since an alias copies what the aliases before it have made of the method. -/
theorem alias_order_shows :
    copiesFirst.aliases.Perm hidesFirst.aliases ∧ copiesFirst.exclusions = hidesFirst.exclusions ∧
      ((hidesFirst.aliases.filter fun a => a.targets worker.name).map Alias.targetKey).Nodup ∧
      ¬ (copiesFirst.contributions worker "C").Perm (hidesFirst.contributions worker "C") :=
  ⟨by decide, rfl, by decide +kernel, by decide +kernel⟩

end Declaration

end Hierarchy
