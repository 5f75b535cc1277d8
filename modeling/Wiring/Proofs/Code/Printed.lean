import Wiring.Proofs.Code.PrintedExpression

/-!
# Printed files

The text of a generated file determines its imports and its classes.  Statements, members, classes
and imports end with a mark of their own, and what comes next is told from its first characters.
-/

namespace Wiring.Code

theorem eq_of_print_semicolon {e e' : Expression} (h : e.readable = true)
    (hother : e'.readable = true) {rest other : List Char}
    (heq : e.print ++ (";\n".toList ++ rest) = e'.print ++ (";\n".toList ++ other)) :
    e = e' ∧ rest = other := by
  obtain ⟨hsame, hmore⟩ := Expression.isTold h e' (";\n".toList ++ rest) (";\n".toList ++ other)
    hother (Expression.ends_of_mark (by decide) _) (Expression.ends_of_mark (by decide) _) heq
  exact ⟨hsame, List.append_cancel_left hmore⟩

def Statement.readable : Statement → Bool
  | superCall => true
  | assign target value => target.readable && value.readable

namespace Statement

def print (statement : Statement) : List Char :=
  (indent ++ indent ++ statement.text ++ ";\n").toList

/-- What stands in front of the first mark of a statement. -/
def front : Statement → Expression
  | superCall => .call (.identifier "super") []
  | assign target _ => target

def tail : Statement → List Char
  | superCall => []
  | assign _ value => " = ".toList ++ value.print

theorem print_eq (statement : Statement) : statement.print =
    (indent ++ indent).toList ++ (statement.front.print ++ (statement.tail ++ ";\n".toList)) := by
  cases statement <;>
    simp [print, front, tail, text, Expression.print, Expression.text, Expression.listText]

theorem readable_front {statement : Statement} (h : statement.readable = true) :
    statement.front.readable = true := by
  cases statement with
  | superCall =>
      have hcall : (Expression.call (.identifier "super") []).readable = true := by decide
      exact hcall
  | assign target value => exact (Bool.and_eq_true_iff.mp h).1

theorem ends_tail (statement : Statement) (rest : List Char) :
    Expression.Ends (statement.tail ++ (";\n".toList ++ rest)) := by
  cases statement with
  | superCall => exact Expression.ends_of_mark (by decide) _
  | assign target value => exact Expression.ends_of_mark (by decide) _

theorem told {statement : Statement} (h : statement.readable = true) :
    Told (fun other ↦ other.readable = true) print (fun _ ↦ True) statement := by
  rintro b rest other hb - - heq
  simp only [print_eq, List.append_assoc] at heq
  obtain ⟨hfront, htail⟩ := Expression.isTold (readable_front h) _ _ _ (readable_front hb)
    (statement.ends_tail rest) (b.ends_tail other) (List.append_cancel_left heq)
  cases statement with
  | superCall =>
      cases b with
      | superCall => exact ⟨rfl, List.append_cancel_left htail⟩
      | assign target value => exact absurd (List.cons.inj htail).1 (by decide)
  | assign target value =>
      cases b with
      | superCall => exact absurd (List.cons.inj htail).1 (by decide)
      | assign target' value' =>
          obtain rfl : target = target' := hfront
          simp only [tail, List.append_assoc] at htail
          obtain ⟨rfl, hrest⟩ := eq_of_print_semicolon (Bool.and_eq_true_iff.mp h).2
            (Bool.and_eq_true_iff.mp hb).2 (List.append_cancel_left htail)
          exact ⟨rfl, hrest⟩

end Statement

/-! ## Members -/

/-- A word behind a blank. -/
def printLaterWord (word : String) : List Char :=
  ' ' :: word.toList

theorem toList_words (word : String) (later : List String) :
    (" ".intercalate (word :: later)).toList = word.toList ++ later.flatMap printLaterWord := by
  induction later generalizing word with
  | nil => rw [String.intercalate_singleton, List.flatMap_nil, List.append_nil]
  | cons next later ih =>
      rw [String.intercalate_cons_cons, String.append_assoc, String.toList_append,
        String.toList_append, ih]
      rfl

/-- The words in front of a member end here. -/
def EndsWords (rest : List Char) : Prop :=
  ∃ c more, rest = c :: more ∧ (c = '(' ∨ c = ';')

theorem EndsWords.endsWord {rest : List Char} (h : EndsWords rest) : EndsWord rest := by
  obtain ⟨c, more, rfl, rfl | rfl⟩ := h <;> exact endsWord_of_mark (by decide) more

def IsWord (word : String) : Prop :=
  ∀ c ∈ word.toList, isNamePart c = true

theorem endsWord_later (later : List String) {rest : List Char} (h : EndsWords rest) :
    EndsWord (later.flatMap printLaterWord ++ rest) := by
  cases later with
  | nil => exact h.endsWord
  | cons word later => exact endsWord_of_mark (by decide) _

theorem eq_of_words {word other : String} {later others : List String} {rest more : List Char}
    (h : ∀ w ∈ word :: later, IsWord w) (hothers : ∀ w ∈ other :: others, IsWord w)
    (hrest : EndsWords rest) (hmore : EndsWords more)
    (heq : (" ".intercalate (word :: later)).toList ++ rest =
      (" ".intercalate (other :: others)).toList ++ more) :
    word :: later = other :: others ∧ rest = more := by
  obtain ⟨hword, hlater⟩ := List.forall_mem_cons.mp h
  obtain ⟨hother, hlaterOthers⟩ := List.forall_mem_cons.mp hothers
  have htold : Told (fun words : List String ↦ ∀ w ∈ words, IsWord w)
      (List.flatMap printLaterWord) EndsWords later := by
    refine told_flatMap (fun w rest _ ↦ endsWord_of_mark (by decide) _)
      (fun rest hrest ↦ hrest.endsWord) ?_ fun w hw ↦ ⟨hlater w hw, ?_⟩
    · rintro w rest - ⟨c, more, hmore, hc⟩
      obtain rfl := (List.cons.inj hmore).1
      revert hc
      decide
    · intro b rest other hb hrest hother heq
      exact told_word (hlater w hw) b rest other hb hrest hother (List.cons.inj heq).2
  rw [toList_words, toList_words, List.append_assoc, List.append_assoc] at heq
  obtain ⟨rfl, hbehind⟩ := told_word hword other _ _ hother (endsWord_later later hrest)
    (endsWord_later others hmore) heq
  obtain ⟨rfl, hrest⟩ := htold others rest more hlaterOthers hrest hmore hbehind
  exact ⟨rfl, hrest⟩

/-- A name of a method or a field. -/
def isMemberName (name : String) : Bool :=
  isName name && name != "constructor"

namespace Member

def readable : Member → Bool
  | method declared => isMemberName declared.name && declared.body.readable
  | field declared => isMemberName declared.name
  | constructor body => body.all Statement.readable

def print (member : Member) : List Char :=
  member.text.toList

def visibilityWords : Visibility → List String
  | .exposed => []
  | .hidden => ["private"]

/-- The words that a member begins with, its name last. -/
def words : Member → List String
  | method declared => visibilityWords declared.visibility ++
    ((if declared.isAsync then ["async"] else []) ++ [declared.name])
  | field declared => visibilityWords declared.visibility ++ [declared.name]
  | constructor _ => ["constructor"]

/-- What stands behind the words. -/
def tail : Member → String
  | method declared => "() \x7b\n" ++ (indent ++ (indent ++ ("return " ++
    (declared.body.text ++ (";\n" ++ (indent ++ "\x7d\n"))))))
  | field _ => ";\n"
  | constructor body => "() \x7b\n" ++ (String.join (body.map fun statement ↦
    indent ++ indent ++ statement.text ++ ";\n") ++ (indent ++ "\x7d\n"))

theorem text_eq (member : Member) :
    member.text = indent ++ (" ".intercalate member.words ++ member.tail) := by
  have hprivate : "private " = "private" ++ " " := rfl
  have hasync : "async " = "async" ++ " " := rfl
  cases member with
  | method declared =>
      obtain ⟨name, visibility, isAsync, body⟩ := declared
      cases visibility <;> cases isAsync <;>
        simp only [text, Method.text, words, tail, visibilityWords, Visibility.text, hprivate,
          hasync, String.intercalate_cons_cons, String.intercalate_singleton, List.nil_append,
          List.cons_append, String.append_assoc, String.empty_append, if_true, if_false,
          Bool.false_eq_true]
  | field declared =>
      obtain ⟨name, visibility⟩ := declared
      cases visibility <;>
        simp only [text, MemberField.text, words, tail, visibilityWords, Visibility.text, hprivate,
          String.intercalate_cons_cons, String.intercalate_singleton, List.nil_append,
          List.cons_append, String.append_assoc, String.empty_append]
  | constructor body =>
      have hhead : "constructor() \x7b\n" = "constructor" ++ "() \x7b\n" := rfl
      simp only [text, constructorText, words, tail, String.intercalate_singleton, hhead,
        String.append_assoc]

theorem exists_words (member : Member) : ∃ word later, member.words = word :: later := by
  refine List.exists_cons_of_ne_nil ?_
  cases member <;> simp [words]

theorem isWord_of_mem_words {member : Member} (h : member.readable = true) :
    ∀ word ∈ member.words, IsWord word := by
  have hkeywords : ∀ word ∈ ["private", "async", "constructor"], IsWord word := by
    have hall : (["private", "async", "constructor"].all (·.toList.all isNamePart)) = true := by
      decide
    intro word hword
    exact List.all_eq_true.mp (List.all_eq_true.mp hall word hword)
  have hvisibility : ∀ visibility, ∀ word ∈ visibilityWords visibility, IsWord word := by
    rintro (_ | _)
    · exact List.forall_mem_nil _
    · exact List.forall_mem_singleton.mpr (hkeywords _ (by simp))
  have hname : ∀ {name : String}, isMemberName name = true → IsWord name := fun hname ↦
    isNamePart_of_isName (Bool.and_eq_true_iff.mp hname).1
  cases member with
  | method declared =>
      refine List.forall_mem_append.mpr ⟨hvisibility _, List.forall_mem_append.mpr ⟨?_, ?_⟩⟩
      · split_ifs
        · exact List.forall_mem_singleton.mpr (hkeywords _ (by simp))
        · exact List.forall_mem_nil _
      · exact List.forall_mem_singleton.mpr (hname (Bool.and_eq_true_iff.mp h).1)
  | field declared =>
      exact List.forall_mem_append.mpr ⟨hvisibility _, List.forall_mem_singleton.mpr (hname h)⟩
  | constructor body => exact List.forall_mem_singleton.mpr (hkeywords _ (by simp))

def isField : Member → Bool
  | field _ => true
  | _ => false

theorem head?_tail (member : Member) (rest : List Char) :
    (member.tail.toList ++ rest).head? = some (if member.isField then ';' else '(') := by
  cases member with
  | method declared =>
      rw [tail, String.toList_append]
      rfl
  | field declared => simp [tail, isField]
  | constructor body =>
      rw [tail, String.toList_append]
      rfl

theorem endsWords_tail (member : Member) (rest : List Char) :
    EndsWords (member.tail.toList ++ rest) := by
  obtain ⟨more, hmore⟩ := List.head?_eq_some_iff.mp (member.head?_tail rest)
  refine ⟨_, more, hmore, ?_⟩
  split_ifs <;> simp

theorem isField_eq {member other : Member} {rest more : List Char}
    (h : member.tail.toList ++ rest = other.tail.toList ++ more) :
    member.isField = other.isField := by
  have hmarks := congrArg List.head? h
  rw [head?_tail, head?_tail, Option.some.injEq] at hmarks
  cases hmember : member.isField <;> cases hother : other.isField <;> simp_all

theorem ne_constructor_of_words {declared : Method} {body : List Statement}
    (h : isMemberName declared.name = true) :
    (method declared).words ≠ (constructor body).words := by
  intro hwords
  have hlast := congrArg List.getLast? hwords
  have hname : declared.name = "constructor" := by simpa [words] using hlast
  simp [isMemberName, hname] at h

theorem eq_of_method_words {declared other : Method}
    (h : (method declared).words = (method other).words) : declared.name = other.name ∧
      declared.visibility = other.visibility ∧ declared.isAsync = other.isAsync := by
  obtain ⟨name, visibility, isAsync, body⟩ := declared
  obtain ⟨name', visibility', isAsync', body'⟩ := other
  cases visibility <;> cases visibility' <;> cases isAsync <;> cases isAsync' <;>
    simp_all [words, visibilityWords]

theorem eq_of_field_words {declared other : MemberField}
    (h : (field declared).words = (field other).words) : declared = other := by
  obtain ⟨name, visibility⟩ := declared
  obtain ⟨name', visibility'⟩ := other
  cases visibility <;> cases visibility' <;> simp_all [words, visibilityWords]

/-- No statement begins where the constructor ends. -/
theorem eq_of_constructor_tail {body others : List Statement} {rest other : List Char}
    (h : (constructor body).readable = true) (hothers : (constructor others).readable = true)
    (heq : (constructor body).tail.toList ++ rest = (constructor others).tail.toList ++ other) :
    body = others ∧ rest = other := by
  have hbody : ∀ statements : List Statement,
      (String.join (statements.map fun statement ↦
        indent ++ indent ++ statement.text ++ ";\n")).toList =
      statements.flatMap Statement.print := by
    intro statements
    rw [String.toList_join, List.flatMap_map]
    exact List.flatMap_congr fun statement _ ↦ by rw [Statement.print]
  have htold : Told (fun statements : List Statement ↦ ∀ s ∈ statements, s.readable = true)
      (List.flatMap Statement.print) (fun rest ↦ rest[4]? = some '\x7d') body := by
    refine told_flatMap (fun _ _ _ ↦ trivial) (fun _ _ ↦ trivial) ?_ fun statement hstatement ↦ ?_
    · intro statement rest _
      simp [Statement.print, indent]
    · have hreadable := List.all_eq_true.mp h statement hstatement
      exact ⟨hreadable, Statement.told hreadable⟩
  simp only [tail, String.toList_append, List.append_assoc, List.append_cancel_left_eq, hbody]
    at heq
  obtain ⟨rfl, hclosed⟩ := htold others _ _ (List.all_eq_true.mp hothers) (by simp [indent])
    (by simp [indent]) heq
  simp only [List.append_cancel_left_eq] at hclosed
  exact ⟨rfl, hclosed⟩

/-- Members that begin with the same words are the same, where the texts behind them agree. -/
theorem eq_of_words_of_tail {member other : Member} (h : member.readable = true)
    (hother : other.readable = true) {rest more : List Char} (hwords : member.words = other.words)
    (htail : member.tail.toList ++ rest = other.tail.toList ++ more) :
    member = other ∧ rest = more := by
  have hkind := isField_eq htail
  cases member with
  | method declared =>
      cases other with
      | method others =>
          obtain ⟨name, visibility, isAsync, body⟩ := declared
          obtain ⟨name', visibility', isAsync', body'⟩ := others
          obtain ⟨rfl, rfl, rfl⟩ := eq_of_method_words hwords
          simp only [tail, String.toList_append, List.append_assoc, List.append_cancel_left_eq]
            at htail
          obtain ⟨rfl, hrest⟩ := eq_of_print_semicolon (Bool.and_eq_true_iff.mp h).2
            (Bool.and_eq_true_iff.mp hother).2 htail
          simp only [List.append_cancel_left_eq] at hrest
          exact ⟨rfl, hrest⟩
      | field others => cases hkind
      | constructor others =>
          exact absurd hwords (ne_constructor_of_words (Bool.and_eq_true_iff.mp h).1)
  | field declared =>
      cases other with
      | field others =>
          obtain rfl := eq_of_field_words hwords
          exact ⟨rfl, List.append_cancel_left htail⟩
      | method others => cases hkind
      | constructor others => cases hkind
  | constructor body =>
      cases other with
      | constructor others =>
          obtain ⟨rfl, hrest⟩ := eq_of_constructor_tail h hother htail
          exact ⟨rfl, hrest⟩
      | method others =>
          exact absurd hwords.symm (ne_constructor_of_words (Bool.and_eq_true_iff.mp hother).1)
      | field others => cases hkind

theorem told {member : Member} (h : member.readable = true) :
    Told (fun other ↦ other.readable = true) print (fun _ ↦ True) member := by
  rintro b rest other hb - - heq
  simp only [print, text_eq, String.toList_append, List.append_assoc] at heq
  obtain ⟨word, later, hwords⟩ := member.exists_words
  obtain ⟨word', later', hwords'⟩ := b.exists_words
  have hnames := isWord_of_mem_words h
  have hnames' := isWord_of_mem_words hb
  rw [hwords] at hnames
  rw [hwords'] at hnames'
  rw [hwords, hwords'] at heq
  obtain ⟨hsame, htail⟩ := eq_of_words hnames hnames' (member.endsWords_tail rest)
    (b.endsWords_tail other) (List.append_cancel_left heq)
  exact eq_of_words_of_tail h hb (hwords.trans (hsame.trans hwords'.symm)) htail

end Member

namespace Class

def readable (c : Class) : Bool :=
  isName c.name && isName c.base && c.members.all Member.readable

def print (c : Class) : List Char :=
  c.text.toList

theorem print_eq (c : Class) : c.print = "export class ".toList ++ (c.name.toList ++
    (" extends ".toList ++ (c.base.toList ++ (" \x7b\n".toList ++
      (c.members.flatMap Member.print ++ "\x7d\n".toList))))) := by
  have hmembers : (String.join (c.members.map Member.text)).toList =
      c.members.flatMap Member.print := by
    rw [String.toList_join, List.flatMap_map]
    exact List.flatMap_congr fun member _ ↦ by rw [Member.print]
  unfold print text
  simp only [String.toList_append, hmembers, List.append_assoc]

theorem told {c : Class} (h : c.readable = true) :
    Told (fun other ↦ other.readable = true) print (fun _ ↦ True) c := by
  obtain ⟨name, base, members⟩ := c
  rintro ⟨name', base', members'⟩ rest other hother - - heq
  simp only [readable, Bool.and_eq_true, List.all_eq_true] at h hother
  obtain ⟨⟨hname, hbase⟩, hmembers⟩ := h
  obtain ⟨⟨hname', hbase'⟩, hmembers'⟩ := hother
  have htold : Told (fun members : List Member ↦ ∀ m ∈ members, m.readable = true)
      (List.flatMap Member.print) (fun rest ↦ rest.head? = some '\x7d') members := by
    refine told_flatMap (fun _ _ _ ↦ trivial) (fun _ _ ↦ trivial) ?_ fun member hmember ↦
      ⟨hmembers member hmember, Member.told (hmembers member hmember)⟩
    intro member rest _
    simp [Member.print, Member.text_eq, indent]
  simp only [print_eq, List.append_assoc, List.append_cancel_left_eq] at heq
  obtain ⟨rfl, heq⟩ := told_word (isNamePart_of_isName hname) name' _ _
    (isNamePart_of_isName hname') (endsWord_of_mark (by decide) _)
    (endsWord_of_mark (by decide) _) heq
  simp only [List.append_cancel_left_eq] at heq
  obtain ⟨rfl, heq⟩ := told_word (isNamePart_of_isName hbase) base' _ _
    (isNamePart_of_isName hbase') (endsWord_of_mark (by decide) _)
    (endsWord_of_mark (by decide) _) heq
  simp only [List.append_cancel_left_eq] at heq
  obtain ⟨rfl, heq⟩ := htold members' _ _ hmembers' (by simp) (by simp) heq
  simp only [List.append_cancel_left_eq] at heq
  exact ⟨rfl, heq⟩

end Class

namespace Import

/-- The quotes around the specifier are the only ones. -/
def readable (i : Import) : Bool :=
  isName i.name && i.specifier.toList.all (· != '"')

def print (i : Import) : List Char :=
  i.text.toList

theorem told {i : Import} (h : i.readable = true) :
    Told (fun other ↦ other.readable = true) print (fun _ ↦ True) i := by
  obtain ⟨name, specifier⟩ := i
  rintro ⟨name', specifier'⟩ rest other hother - - heq
  simp only [readable, Bool.and_eq_true, List.all_eq_true] at h hother
  simp only [print, text, String.toList_append, List.append_assoc, List.append_cancel_left_eq]
    at heq
  obtain ⟨rfl, heq⟩ := told_word (isNamePart_of_isName h.1) name' _ _
    (isNamePart_of_isName hother.1) (endsWord_of_mark (by decide) _)
    (endsWord_of_mark (by decide) _) heq
  simp only [List.append_cancel_left_eq] at heq
  obtain ⟨hspecifier, heq⟩ := eq_of_append_of_all h.2 hother.2 (by simp) (by simp) heq
  obtain rfl := String.toList_inj.mp hspecifier
  simp only [List.append_cancel_left_eq] at heq
  exact ⟨rfl, heq⟩

end Import

/-! ## Files -/

namespace File

/-- All names in the file are names, specifiers have no quotes and no await is applied. -/
def readable (file : File) : Bool :=
  file.imports.all Import.readable && file.classes.all Class.readable

theorem print_eq (file : File) : file.text.toList =
    file.imports.flatMap Import.print ++ file.classes.flatMap Class.print := by
  rw [text, String.toList_append, String.toList_join, String.toList_join, List.flatMap_map,
    List.flatMap_map]
  exact congrArg₂ (· ++ ·) (List.flatMap_congr fun i _ ↦ by rw [Import.print])
    (List.flatMap_congr fun c _ ↦ by rw [Class.print])

/-- Files of one text have the same imports and the same classes. -/
theorem eq_of_text_eq {file other : File} (h : file.readable = true)
    (hother : other.readable = true) (heq : file.text = other.text) :
    file.imports = other.imports ∧ file.classes = other.classes := by
  obtain ⟨hreadImports, hreadClasses⟩ := Bool.and_eq_true_iff.mp h
  obtain ⟨hotherImports, hotherClasses⟩ := Bool.and_eq_true_iff.mp hother
  rw [List.all_eq_true] at hreadImports hreadClasses hotherImports hotherClasses
  -- An import begins with another letter than a class, and a class with one at all.
  have hclasses : Told (fun classes : List Class ↦ ∀ c ∈ classes, c.readable = true)
      (List.flatMap Class.print) (fun rest ↦ rest = []) file.classes := by
    refine told_flatMap (fun _ _ _ ↦ trivial) (fun _ _ ↦ trivial) ?_ fun c hc ↦
      ⟨hreadClasses c hc, Class.told (hreadClasses c hc)⟩
    intro c rest _
    simp [Class.print_eq]
  have himports : Told (fun imports : List Import ↦ ∀ i ∈ imports, i.readable = true)
      (List.flatMap Import.print) (fun rest ↦ rest.head? ≠ some 'i') file.imports := by
    refine told_flatMap (fun _ _ _ ↦ trivial) (fun _ _ ↦ trivial) ?_ fun i hi ↦
      ⟨hreadImports i hi, Import.told (hreadImports i hi)⟩
    intro i rest _
    simp [Import.print, Import.text]
  have hletter : ∀ classes : List Class, (classes.flatMap Class.print).head? ≠ some 'i' := by
    intro classes
    cases classes with
    | nil => simp
    | cons c classes => simp [Class.print_eq]
  have hchars : file.imports.flatMap Import.print ++ file.classes.flatMap Class.print =
      other.imports.flatMap Import.print ++ other.classes.flatMap Class.print := by
    rw [← print_eq, ← print_eq, heq]
  obtain ⟨hsame, hmore⟩ := himports other.imports _ _ hotherImports (hletter file.classes)
    (hletter other.classes) hchars
  obtain ⟨hclassesSame, -⟩ := hclasses other.classes [] [] hotherClasses rfl rfl
    (by rw [List.append_nil, List.append_nil, hmore])
  exact ⟨hsame, hclassesSame⟩

/-- A file for a component with one module, an accessor of a list and an override. -/
def site (path : Path) : File where
  path := path
  imports := [⟨"Site", "../app.js"⟩, ⟨"Root", "../root.js"⟩]
  classes := [⟨"SiteImpl", "Site", [
    .method ⟨"feed", .exposed, true, .await (.call (.thisProperty "_Root_feed") [])⟩,
    .method ⟨"_Root_feed", .hidden, true, .call (.property (.thisProperty "_Root") "feed")
      [.construct "Set" [.array [.this, .await (.call (.thisProperty "_Root_clock") [])]]]⟩,
    .field ⟨"_Root", .hidden⟩,
    .constructor [.superCall, .assign (.thisProperty "_Root") (.construct "Root" [])]]⟩]

theorem site_eq_of_text_eq :
    (site ⟨"gen/app.ts"⟩).readable = true ∧ (site ⟨"./gen/app.ts"⟩).readable = true ∧
      (site ⟨"gen/app.ts"⟩).text = (site ⟨"./gen/app.ts"⟩).text ∧
      (site ⟨"gen/app.ts"⟩).imports = (site ⟨"./gen/app.ts"⟩).imports ∧
      (site ⟨"gen/app.ts"⟩).classes = (site ⟨"./gen/app.ts"⟩).classes := by
  have hsite : (site ⟨"gen/app.ts"⟩).readable = true := by decide +kernel
  have hother : (site ⟨"./gen/app.ts"⟩).readable = true := by decide +kernel
  have htext : (site ⟨"gen/app.ts"⟩).text = (site ⟨"./gen/app.ts"⟩).text := rfl
  exact ⟨hsite, hother, htext, eq_of_text_eq hsite hother htext⟩

end File

end Wiring.Code
