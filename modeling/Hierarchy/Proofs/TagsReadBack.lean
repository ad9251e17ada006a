import Mathlib.Data.List.Basic
import Hierarchy.Proofs.WordsAndLines
import Hierarchy.DocTag

namespace Hierarchy

open Text

namespace DocTag

def marks : List String := ["@property", "@property-read", "@property-write", "@method"]

def mark (tag : DocTag) : String :=
  if tag.kind = .method then "@method"
  else match tag.access with
    | .readWrite => "@property"
    | .readOnly => "@property-read"
    | .writeOnly => "@property-write"

inductive Layout where
  | bare
  | starred
  | enclosed

def Layout.apply : Layout → List Char → List Char
  | bare, cs => cs
  | starred, cs => ' ' :: '*' :: ' ' :: cs
  | enclosed, cs => '/' :: '*' :: '*' :: ' ' :: cs ++ [' ', '*', '/']

/-- What is free in writing a tag down. -/
structure Hand where
  layout : Layout
  blank : Char
  /-- Whether that blank stands between a method name and its parameters, too. -/
  spaced : Bool
  parameters : String
  isBlank_blank : isBlank blank = true := by decide
  lineFeed_ne_blank : '\n' ≠ blank := by decide
  closing_notMem : ')' ∉ parameters.toList := by decide
  lineFeed_notMem : '\n' ∉ parameters.toList := by decide

def Hand.gap (hand : Hand) : List Char := if hand.spaced then [hand.blank] else []

def designation (tag : DocTag) (hand : Hand) : List Char :=
  if tag.kind = .method then
    (tag.name.toList ++ hand.gap) ++ '(' :: (hand.parameters.toList ++ [')'])
  else '$' :: tag.name.toList

def staticWord : List Char := ['s', 't', 'a', 't', 'i', 'c']

def qualifiers (tag : DocTag) : List (List Char) :=
  (if tag.isStatic then [staticWord] else []) ++
    tag.typeText.toList.map String.toList

def body (tag : DocTag) (hand : Hand) : List Char :=
  [hand.blank].intercalate
    (tag.qualifiers ++ tag.designation hand :: tag.description.toList.map String.toList)

def render (tag : DocTag) (hand : Hand) : List Char :=
  tag.mark.toList ++ hand.blank :: tag.body hand

/-- A property that can be read back: its type, if any, is told from its name by the dollar sign. -/
structure WritableProperty (tag : DocTag) : Prop where
  kind : tag.kind = .property
  notStatic : tag.isStatic = false
  name : IsWord tag.name.toList
  typeText : ∀ text ∈ tag.typeText, IsWord text.toList ∧ text.toList.head? ≠ some '$'
  description : ∀ text ∈ tag.description, IsPhrase text.toList

/-- A method that can be read back: its name ends at the first parenthesis, and what its type starts
with is not taken for a modifier. -/
structure WritableMethod (tag : DocTag) : Prop where
  kind : tag.kind = .method
  access : tag.access = .readWrite
  name : IsWord tag.name.toList ∧ '(' ∉ tag.name.toList
  typeText : ∀ text ∈ tag.typeText, IsPhrase text.toList ∧ '(' ∉ text.toList
  notStatic : ∀ text ∈ tag.typeText, tag.isStatic = false →
    (words text.toList).head? ≠ some staticWord
  description : ∀ text ∈ tag.description, IsPhrase text.toList

theorem isWord_static : IsWord staticWord := by decide

theorem phrase?_flatMap_words {text? : Option String} (h : ∀ text ∈ text?, IsPhrase text.toList) :
    phrase? ((text?.toList.map String.toList).flatMap words) = text? := by
  cases text? with
  | none => rfl
  | some text =>
    obtain ⟨hne, htext⟩ := isPhrase_iff.mp (h text rfl)
    simp [phrase?, hne, htext]

theorem variableName?_dollar {name : String} (h : IsWord name.toList) :
    variableName? ('$' :: name.toList) = some name := by
  obtain ⟨c, rest, hname⟩ := List.exists_cons_of_ne_nil h.1
  simp only [hname, variableName?]
  rw [← hname, String.ofList_toList]

theorem isWord_dollar {name : List Char} (h : IsWord name) : IsWord ('$' :: name) := by
  refine ⟨by simp, ?_⟩
  intro c hc
  rcases List.mem_cons.mp hc with rfl | hc
  · decide
  · exact h.2 c hc

theorem WritableProperty.property?_body {tag : DocTag} (h : tag.WritableProperty) (hand : Hand) :
    property? tag.access (tag.body hand) = some tag := by
  have hvariable := variableName?_dollar h.name
  have hphrase := phrase?_flatMap_words h.description
  have hwords : words (tag.body hand) = (tag.typeText.toList.map String.toList).flatMap words ++
      ('$' :: tag.name.toList) :: (tag.description.toList.map String.toList).flatMap words := by
    rw [body, words_intercalate hand.isBlank_blank]
    simp [qualifiers, designation, h.kind, h.notStatic, (isWord_dollar h.name).words_eq]
  have htag : DocTag.mk .property tag.name false tag.access tag.typeText tag.description = tag := by
    rw [← h.kind, ← h.notStatic]
  cases htype : tag.typeText with
  | none =>
    rw [htype] at hwords htag
    simp [property?, hwords, hvariable, hphrase, htag]
  | some text =>
    obtain ⟨hword, hhead⟩ := h.typeText text htype
    rw [htype] at hwords htag
    simp [property?, hwords, hword.words_eq, hhead, hvariable, hphrase, htag]

theorem WritableMethod.modifiers_qualifiers {tag : DocTag} (h : tag.WritableMethod) :
    modifiers (tag.qualifiers.flatMap words) = (tag.isStatic, tag.typeText) := by
  have hphrase := phrase?_flatMap_words fun text htext => (h.typeText text htext).1
  cases hstatic : tag.isStatic with
  | true =>
    simp only [qualifiers, hstatic, if_true, List.flatMap_cons, isWord_static.words_eq,
      List.singleton_append]
    rw [staticWord, modifiers, hphrase]
  | false =>
    have hfirst : ((tag.typeText.toList.map String.toList).flatMap words).head? ≠
        some staticWord := by
      cases htext : tag.typeText with
      | none => simp
      | some text => simpa using h.notStatic text htext hstatic
    simp only [qualifiers, hstatic, Bool.false_eq_true, if_false, List.nil_append]
    rw [modifiers, hphrase]
    intro rest heq
    simp [heq, staticWord] at hfirst

theorem notMem_of_mem_qualifiers {tag : DocTag} {c : Char}
    (hstatic : c ∉ staticWord) (htype : ∀ text ∈ tag.typeText, c ∉ text.toList) :
    ∀ part ∈ tag.qualifiers, c ∉ part := by
  rw [qualifiers, List.forall_mem_append]
  constructor
  · cases tag.isStatic with
    | true => simpa using hstatic
    | false => simp
  · simpa using htype

theorem Hand.notMem_gap {hand : Hand} {c : Char} (hc : c ≠ hand.blank) : c ∉ hand.gap := by
  cases hspaced : hand.spaced <;> simp [gap, hspaced, hc]

theorem Hand.paren_ne_blank (hand : Hand) : '(' ≠ hand.blank := by
  intro heq
  have hblank := hand.isBlank_blank
  rw [← heq] at hblank
  exact absurd hblank (by decide)

def methodHead (tag : DocTag) (hand : Hand) : List Char :=
  [hand.blank].intercalate (tag.qualifiers ++ [tag.name.toList ++ hand.gap])

def methodTail (tag : DocTag) (hand : Hand) : List Char :=
  [hand.blank].intercalate ([] :: tag.description.toList.map String.toList)

theorem words_methodTail (tag : DocTag) (hand : Hand) :
    words (tag.methodTail hand) = (tag.description.toList.map String.toList).flatMap words := by
  simp [methodTail, words_intercalate hand.isBlank_blank]

namespace WritableMethod

variable {tag : DocTag} (h : tag.WritableMethod) (hand : Hand)
include h

theorem body_eq : tag.body hand =
    tag.methodHead hand ++ '(' :: (hand.parameters.toList ++ ')' :: tag.methodTail hand) := by
  -- The body is cut twice: in front of the opening parenthesis, and behind the closing one.
  have hsplit := intercalate_append_cons [hand.blank] []
    ('(' :: (hand.parameters.toList ++ [')'])) [] (tag.description.toList.map String.toList)
  rw [body, designation, if_pos h.kind, intercalate_append_cons, methodHead, methodTail]
  simpa using hsplit

theorem words_methodHead :
    words (tag.methodHead hand) = tag.qualifiers.flatMap words ++ [tag.name.toList] := by
  have hgap : words (tag.name.toList ++ hand.gap) = [tag.name.toList] := by
    cases hspaced : hand.spaced with
    | true => simp [Hand.gap, hspaced, words_append_cons hand.isBlank_blank, h.name.1.words_eq]
    | false => simp [Hand.gap, hspaced, h.name.1.words_eq]
  simp [methodHead, words_intercalate hand.isBlank_blank, hgap]

theorem paren_notMem_methodHead : '(' ∉ tag.methodHead hand := by
  apply notMem_intercalate hand.paren_ne_blank
  rw [List.forall_mem_append]
  constructor
  · exact notMem_of_mem_qualifiers (by decide) fun text htext => (h.typeText text htext).2
  · simp [h.name.2, Hand.notMem_gap hand.paren_ne_blank]

theorem method?_body : method? (tag.body hand) = some tag := by
  have hopen : cutAt? (· == '(') (tag.body hand) =
      some (tag.methodHead hand, hand.parameters.toList ++ ')' :: tag.methodTail hand) := by
    rw [h.body_eq]
    apply cutAt?_append_cons _ _ rfl
    intro c hc
    simpa using ne_of_mem_of_not_mem hc (h.paren_notMem_methodHead hand)
  have hclose : cutAt? (· == ')') (hand.parameters.toList ++ ')' :: tag.methodTail hand) =
      some (hand.parameters.toList, tag.methodTail hand) := by
    apply cutAt?_append_cons _ _ rfl
    intro c hc
    simpa using ne_of_mem_of_not_mem hc hand.closing_notMem
  have hphrase := phrase?_flatMap_words h.description
  simp only [method?, hopen, hclose, h.words_methodHead, words_methodTail, h.modifiers_qualifiers,
    hphrase, Option.bind_eq_bind, Option.bind_some, List.getLast?_concat, List.dropLast_concat,
    String.ofList_toList]
  rw [← h.kind, ← h.access]
  rfl

end WritableMethod

theorem dropOpeners_eq_self {cs : List Char} (h : cs.head? ≠ some '/') : dropOpeners cs = cs := by
  unfold dropOpeners
  split
  · simp at h
  · rfl

theorem dropClosers_eq_self {cs : List Char} (h : ¬ ['*', '/'] <:+ cs) : dropClosers cs = cs := by
  rw [← List.reverse_prefix] at h
  have hdrop : dropReversedClosers cs.reverse = cs.reverse := by
    unfold dropReversedClosers
    split
    · simp_all
    · rfl
  rw [dropClosers, hdrop, List.reverse_reverse]

theorem dropClosers_append_closer (cs : List Char) :
    dropClosers (cs ++ ['*', '/']) = dropClosers cs := by
  simp [dropClosers, dropReversedClosers]

section Content

/- What stands between decorations: a text that starts like a mark and does not end with a blank. -/
variable {rest : List Char} (hfirm : EndsFirm ('@' :: rest))
include hfirm

theorem trimEnd_content : trimEnd ('@' :: rest) = '@' :: rest := trimEnd_eq_self hfirm.getLast?_any

theorem trim_content : trim ('@' :: rest) = '@' :: rest := by
  rw [trim, trimStart_eq_self rfl, trimEnd_content hfirm]

theorem undecorated_bare (hcloser : ¬ ['*', '/'] <:+ '@' :: rest) :
    undecorated ('@' :: rest) = '@' :: rest := by
  rw [undecorated, trim_content hfirm, dropOpeners_eq_self (by simp), dropClosers_eq_self hcloser,
    List.dropWhile_cons_of_neg (by decide), trim_content hfirm]

theorem undecorated_starred (hcloser : ¬ ['*', '/'] <:+ '@' :: rest) :
    undecorated (' ' :: '*' :: ' ' :: '@' :: rest) = '@' :: rest := by
  have houter : trim (' ' :: '*' :: ' ' :: '@' :: rest) = '*' :: ' ' :: '@' :: rest := by
    rw [trim_cons_blank isBlank_space]
    exact trim_eq_self rfl (hfirm.append ['*', ' ']).getLast?_any
  have hends : ¬ ['*', '/'] <:+ '*' :: ' ' :: '@' :: rest := by
    simpa [List.suffix_cons_iff] using hcloser
  rw [undecorated, houter, dropOpeners_eq_self (by simp), dropClosers_eq_self hends,
    List.dropWhile_cons_of_pos (by decide), List.dropWhile_cons_of_neg (by decide),
    trim_cons_blank isBlank_space, trim_content hfirm]

theorem undecorated_enclosed :
    undecorated ('/' :: '*' :: '*' :: ' ' :: '@' :: rest ++ [' ', '*', '/']) = '@' :: rest := by
  have houter : trim ('/' :: '*' :: '*' :: ' ' :: '@' :: rest ++ [' ', '*', '/']) =
      '/' :: '*' :: '*' :: ' ' :: '@' :: rest ++ [' ', '*', '/'] := by
    apply trim_eq_self rfl
    rw [List.getLast?_append]
    rfl
  have hopener : dropOpeners ('/' :: '*' :: '*' :: ' ' :: '@' :: rest ++ [' ', '*', '/']) =
      (' ' :: '@' :: rest ++ [' ']) ++ ['*', '/'] := by
    simp [dropOpeners]
  -- One closer comes off; the space in front of it shields the end of the content.
  have hends : ¬ ['*', '/'] <:+ ' ' :: '@' :: rest ++ [' '] := by
    intro h
    rcases List.suffix_concat_iff.mp h with hnil | ⟨before, hbefore, -⟩
    · cases hnil
    · have hspace := congrArg List.getLast? hbefore
      rw [List.getLast?_concat] at hspace
      exact absurd hspace (by decide)
  rw [undecorated, houter, hopener, dropClosers_append_closer, dropClosers_eq_self hends,
    List.cons_append, List.dropWhile_cons_of_neg (by decide), trim_cons_blank isBlank_space, trim,
    trimStart_eq_self rfl, trimEnd_concat_blank isBlank_space, trimEnd_content hfirm]

end Content

theorem undecorated_apply (layout : Layout) {cs : List Char} (hfirst : cs.head? = some '@')
    (hfirm : EndsFirm cs) (hcloser : ¬ ['*', '/'] <:+ cs) :
    undecorated (layout.apply cs) = cs := by
  obtain ⟨rest, rfl⟩ := List.head?_eq_some_iff.mp hfirst
  cases layout with
  | bare => exact undecorated_bare hfirm hcloser
  | starred => exact undecorated_starred hfirm hcloser
  | enclosed => exact undecorated_enclosed hfirm

/-- Whether the line, less its decoration, opens with a mark and a blank behind it.  A mark that is all
there is on a line, or part of a longer word, opens no tag. -/
def opensTag (line : List Char) : Bool :=
  marks.any fun mark => mark.toList.isPrefixOf (undecorated line) &&
    ((undecorated line).drop mark.length).head?.any isBlank

theorem ofLine?_eq_none {line : List Char} (h : opensTag line = false) : ofLine? line = none := by
  unfold ofLine?
  cases hcut : cutAt? isBlank (undecorated line) with
  | none => rfl
  | some cut =>
    obtain ⟨first, text⟩ := cut
    obtain ⟨c, hc, hline, -⟩ := cutAt?_eq_some hcut
    have hfirst : ∀ mark ∈ marks, first ≠ mark.toList := by
      rintro mark hmark rfl
      have hopens : opensTag line = true := List.any_eq_true.mpr ⟨mark, hmark, by
        simp [hline, ← String.length_toList, hc]⟩
      rw [h] at hopens
      cases hopens
    show (if first = "@property".toList then _ else _) = none
    rw [if_neg (hfirst _ (by decide)), if_neg (hfirst _ (by decide)),
      if_neg (hfirst _ (by decide)), if_neg (hfirst _ (by decide))]

theorem isWord_mark (tag : DocTag) : IsWord tag.mark.toList := by
  unfold mark
  split
  · decide
  · cases tag.access <;> decide

theorem head?_mark (tag : DocTag) : tag.mark.toList.head? = some '@' := by
  unfold mark
  split
  · decide
  · cases tag.access <;> decide

/-- A tag that can be read back as it is written.  Whatever the decoration of its line, it is not to
end as a comment does. -/
structure Fits (tag : DocTag) (hand : Hand) : Prop where
  writable : tag.WritableProperty ∨ tag.WritableMethod
  closer : ¬ ['*', '/'] <:+ tag.render hand

namespace Fits

variable {tag : DocTag} {hand : Hand} (h : tag.Fits hand)
include h

theorem description : ∀ text ∈ tag.description, IsPhrase text.toList := by
  rcases h.writable with hproperty | hmethod
  · exact hproperty.description
  · exact hmethod.description

theorem typeText : ∀ text ∈ tag.typeText, IsPhrase text.toList := by
  intro text htext
  rcases h.writable with hproperty | hmethod
  · exact (hproperty.typeText text htext).1.isPhrase
  · exact (hmethod.typeText text htext).1

theorem endsFirm_designation : EndsFirm (tag.designation hand) := by
  rcases h.writable with hproperty | hmethod
  · simpa [designation, hproperty.kind] using (isWord_dollar hproperty.name).endsFirm
  · rw [designation, if_pos hmethod.kind, ← List.cons_append, ← List.append_assoc]
    exact EndsFirm.append ⟨')', rfl, by decide⟩ _

theorem endsFirm_render : EndsFirm (tag.render hand) := by
  rw [render, List.append_cons]
  apply EndsFirm.append
  cases htext : tag.description with
  | none => simpa [body, htext] using h.endsFirm_designation.intercalate_concat _ tag.qualifiers
  | some text =>
    have hlast := (h.description text htext).endsFirm.intercalate_concat [hand.blank]
      (tag.qualifiers ++ [tag.designation hand])
    simpa [body, htext] using hlast

theorem ofLine?_render : ofLine? (hand.layout.apply (tag.render hand)) = some tag := by
  have hline : undecorated (hand.layout.apply (tag.render hand)) = tag.render hand := by
    apply undecorated_apply _ _ h.endsFirm_render h.closer
    simp [render, head?_mark]
  have hcut : cutAt? isBlank (tag.render hand) = some (tag.mark.toList, tag.body hand) :=
    cutAt?_append_cons _ (isWord_mark tag).2 hand.isBlank_blank
  rw [ofLine?, hline, hcut]
  rcases h.writable with hproperty | hmethod
  · have hread := hproperty.property?_body hand
    cases haccess : tag.access <;> rw [haccess] at hread <;>
      simpa [mark, hproperty.kind, haccess] using hread
  · simpa [mark, hmethod.kind] using hmethod.method?_body hand

theorem lineFeed_notMem_designation : '\n' ∉ tag.designation hand := by
  rcases h.writable with hproperty | hmethod
  · have hname := hproperty.name.notMem isBlank_lineFeed
    simp [designation, hproperty.kind, hname]
  · have hname := hmethod.name.1.notMem isBlank_lineFeed
    simp [designation, hmethod.kind, hname, Hand.notMem_gap hand.lineFeed_ne_blank, hand.lineFeed_notMem]

theorem lineFeed_notMem_body : '\n' ∉ tag.body hand := by
  apply notMem_intercalate hand.lineFeed_ne_blank
  rw [List.forall_mem_append]
  constructor
  · exact notMem_of_mem_qualifiers (by decide) fun text htext =>
      (h.typeText text htext).notMem isBlank_lineFeed (by decide)
  · rw [List.forall_mem_cons]
    refine ⟨h.lineFeed_notMem_designation, ?_⟩
    have hdescription : ∀ text ∈ tag.description, '\n' ∉ text.toList := fun text htext =>
      (h.description text htext).notMem isBlank_lineFeed (by decide)
    simpa using hdescription

theorem lineFeed_notMem_line : '\n' ∉ hand.layout.apply (tag.render hand) := by
  have hrender : '\n' ∉ tag.render hand := by
    simp [render, (isWord_mark tag).notMem isBlank_lineFeed, hand.lineFeed_ne_blank,
      h.lineFeed_notMem_body]
  cases hand.layout with
  | bare => exact hrender
  | starred => simpa [Layout.apply] using hrender
  | enclosed => simpa [Layout.apply] using hrender

end Fits

/-- A line of a comment: one that a tag is written on, or any other. -/
inductive Line where
  | tagged (tag : DocTag) (hand : Hand)
  | other (text : String)

namespace Line

def text : Line → String
  | tagged tag hand => String.ofList (hand.layout.apply (tag.render hand))
  | other text => text

def tag? : Line → Option DocTag
  | tagged tag _ => some tag
  | other _ => none

/-- One line that holds a tag as it can be read back, or that opens none. -/
def Clear : Line → Prop
  | tagged tag hand => tag.Fits hand
  | other text => '\n' ∉ text.toList ∧ opensTag text.toList = false

theorem Clear.lineFeed_notMem {line : Line} (h : line.Clear) : '\n' ∉ line.text.toList := by
  cases line with
  | tagged tag hand => simpa [text] using Fits.lineFeed_notMem_line h
  | other text => exact h.1

theorem Clear.ofLine?_text {line : Line} (h : line.Clear) : ofLine? line.text.toList = line.tag? := by
  cases line with
  | tagged tag hand => simpa [text, tag?] using Fits.ofLine?_render h
  | other text => exact ofLine?_eq_none h.2

end Line

/-- Written into a comment, one to a line and among lines that open no tag, tags are read back
unchanged, all of them and in their order. -/
theorem tags_read_back (ls : List Line) (h : ∀ line ∈ ls, line.Clear) :
    ofComment ("\n".intercalate (ls.map Line.text)) = ls.filterMap Line.tag? := by
  by_cases hne : ls = []
  · subst hne
    rfl
  · have hlines : lines ("\n".intercalate (ls.map Line.text)).toList =
        ls.map fun line => line.text.toList := by
      rw [String.toList_intercalate, List.map_map]
      apply lines_intercalate (by simpa using hne)
      simpa using fun line hline => (h line hline).lineFeed_notMem
    rw [ofComment, hlines, List.filterMap_map]
    apply List.filterMap_congr
    intro line hline
    rw [Function.comp_apply, (h line hline).ofLine?_text]

/-- The lines of a comment: every decoration, a tab for a blank, and lines that only look like tags. -/
def userLines : List Line :=
  [.other "/**",
    .other " * A @property of users",
    .tagged ⟨.property, "id", false, .readOnly, some "int", some "the $key"⟩
      { layout := .starred, blank := ' ', spaced := false, parameters := "" },
    .other " * @methodical notes",
    .tagged ⟨.method, "create", true, .readWrite, some "static self", some "a new one"⟩
      { layout := .bare, blank := '\t', spaced := true, parameters := "array $data = f(1" },
    .tagged ⟨.method, "static", false, .readWrite, none, none⟩
      { layout := .enclosed, blank := ' ', spaced := false, parameters := "" },
    .other " * @property",
    .other " */"]

def userComment : String :=
  "/**\n * A @property of users\n * @property-read int $id the $key\n * @methodical notes\n" ++
    "@method\tstatic\tstatic self\tcreate\t(array $data = f(1)\ta new one\n" ++
    "/** @method static() */\n * @property\n */"

theorem intercalate_userLines : "\n".intercalate (userLines.map Line.text) = userComment := by
  decide +kernel

theorem clear_userLines : ∀ line ∈ userLines, line.Clear := by
  simp only [userLines, List.forall_mem_cons]
  refine ⟨⟨by decide, by decide⟩, ⟨by decide, by decide⟩, ?_, ⟨by decide, by decide⟩, ?_, ?_,
    ⟨by decide, by decide⟩, ⟨by decide, by decide⟩, by simp⟩
  · exact ⟨.inl ⟨rfl, rfl, by decide, by decide, by decide⟩, by decide⟩
  · exact ⟨.inr ⟨rfl, rfl, by decide, by decide, by decide, by decide⟩, by decide⟩
  · exact ⟨.inr ⟨rfl, rfl, by decide, by decide, by decide, by decide⟩, by decide⟩

theorem tags_read_back_user : ofComment userComment =
    [⟨.property, "id", false, .readOnly, some "int", some "the $key"⟩,
      ⟨.method, "create", true, .readWrite, some "static self", some "a new one"⟩,
      ⟨.method, "static", false, .readWrite, none, none⟩] := by
  rw [← intercalate_userLines]
  exact tags_read_back userLines clear_userLines

end DocTag

end Hierarchy
