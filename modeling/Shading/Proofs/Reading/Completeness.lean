import Shading.Proofs.Reading.Expressions

/-!
Reading covers the grammar: whatever it writes is read as what it was written
for. Behind a global variable there must not be a placement or a semicolon,
which would belong to it; behind the other parts of a source anything may stand.
-/

namespace Shading

open List

variable {pos close : Position} {text : Bytes} {right : Tokens} {items : List Item}

namespace Reading

open Grammar

variable {used rest : List Token} {e : Except Diagnostic Position}

theorem expects_mark {m : Mark} :
    Expects (.mark m) ⟨⟨.mark m, pos⟩ :: rest, e⟩ (.ok pos) ⟨rest, e⟩ :=
  .taken rfl (if_pos rfl)

theorem names_sym : Names ⟨⟨.sym text, pos⟩ :: rest, e⟩ (.ok ⟨text, pos⟩) ⟨rest, e⟩ :=
  .taken rfl rfl

theorem reads_type {x : TypeSyntax} (h : WrittenType used x) (rest : List Token) :
    ReadsType ⟨used ++ rest, e⟩ x ⟨rest, e⟩ := by
  induction h generalizing rest with
  | named hsize => exact .named (.taken rfl rfl) hsize
  | vector hsize _ ih =>
    simp only [append_assoc]
    exact .vector names_sym hsize expects_mark (ih _) expects_mark

theorem expression_first {level : Level} {x : Expr} (h : Expression level used x) :
    ∃ token tail, used = token :: tail ∧ startsExpression token.lexeme = true := by
  induction h with
  | var | number | paren | vector => exact ⟨_, _, rfl, rfl⟩
  | factor _ ih | term _ ih => exact ih
  | multiply _ _ ih | divide _ _ ih | add _ _ ih | subtract _ _ ih =>
    obtain ⟨token, tail, rfl, hstarts⟩ := ih
    exact ⟨token, _, rfl, hstarts⟩

theorem startsSimple_of_startsExpression {lexeme : Lexeme} (h : startsExpression lexeme = true) :
    startsSimple lexeme = true := by
  cases lexeme with
  | keyword | eof => cases h
  | _ => rfl

theorem reads_simple {value : Expr} {stmt : Stmt} (h : Expression .sum used value)
    (hread : ReadsSimple ⟨used ++ rest, e⟩ stmt right) :
    ReadsStatement ⟨used ++ rest, e⟩ stmt right := by
  obtain ⟨token, tail, rfl, hstarts⟩ := expression_first h
  exact .simple rfl (startsSimple_of_startsExpression hstarts) hread

theorem reads_statements {stmts : List Stmt} (h : Statements used stmts) {more : List Stmt}
    {close : Part Position} (hmore : ReadsBlock ⟨rest, e⟩ more close right) :
    ReadsBlock ⟨used ++ rest, e⟩ (stmts ++ more) close right := by
  induction h generalizing rest more close right with
  | done => exact hmore
  | next _ _ ihx ihrest =>
    rw [append_assoc]
    exact ihx (ihrest hmore)
  | declare htype hvalue =>
    refine .statement ?_ hmore
    simp only [append_assoc]
    exact .declare rfl names_sym expects_mark (reads_type htype _) expects_mark
      ((begins hvalue).whole ⟨_, rfl, rfl, rfl⟩) expects_mark
  | leave => exact .statement (.leave rfl rfl) hmore
  | giveBack hvalue =>
    refine .statement ?_ hmore
    simp only [append_assoc]
    refine .giveBack rfl ?_ ((begins hvalue).whole ⟨_, rfl, rfl, rfl⟩) (.taken rfl rfl)
    obtain ⟨token, tail, rfl, hstarts⟩ := expression_first hvalue
    rintro close ⟨⟩
    cases hstarts
  | @group pos last tokens body _ ih =>
    have hclose : ReadsBlock ⟨⟨.keyword .close, last⟩ :: rest, e⟩ [] (.ok last) ⟨rest, e⟩ :=
      .close rfl
    have hinner := ih hclose
    simp only [append_nil] at hinner
    simp only [append_assoc]
    exact .group rfl hinner hmore
  | evaluate hvalue =>
    refine .statement ?_ hmore
    rw [append_assoc]
    exact reads_simple hvalue (.evaluate ((begins hvalue).whole ⟨_, rfl, rfl, rfl⟩) rfl)
  | assign htarget hvalue =>
    refine .statement ?_ hmore
    simp only [append_assoc]
    exact reads_simple htarget (.assign ((begins htarget).whole ⟨_, rfl, rfl, rfl⟩) rfl
      ((begins hvalue).whole ⟨_, rfl, rfl, rfl⟩) (.taken rfl rfl))

theorem reads_meaning {opened paren unparen : Position} {name argument : Name}
    (hname : name.text = Text.utf8 "builtin") (hargument : argument.text = Text.utf8 "position") :
    ReadsMemberAttribute ⟨attributeTokens opened name paren argument unparen close ++ rest, e⟩
      (.ok .position) ⟨rest, e⟩ :=
  .builtin rfl names_sym hname
    (.known (.mk expects_mark names_sym expects_mark rfl) (if_pos hargument)) expects_mark rfl

theorem reads_member {x : MemberSyntax} (h : Grammar.Member used x) {fields : List MemberSyntax}
    {end' : Part Position} (hrest : ReadsMembers ⟨rest, e⟩ fields end' right) :
    ReadsMembers ⟨used ++ rest, e⟩ (x :: fields) end' right := by
  cases h with
  | member hattribute htype =>
    simp only [append_assoc]
    cases hattribute with
    | absent =>
      refine .member rfl ?_ (.absent ?_) names_sym expects_mark (reads_type htype _) expects_mark
        hrest
      · nofun
      · nofun
    | position hname hargument =>
      refine .member rfl ?_ (reads_meaning hname hargument) names_sym expects_mark
        (reads_type htype _) expects_mark hrest
      nofun

theorem reads_members {written : List (List Token × MemberSyntax)}
    (h : ∀ member ∈ written, Grammar.Member member.1 member.2) :
    ReadsMembers ⟨written.flatMap (·.1) ++ (⟨.keyword .close, close⟩ :: rest), e⟩
      (written.map (·.2)) (.ok close) ⟨rest, e⟩ := by
  induction written with
  | nil => exact .close rfl
  | cons member written ih =>
    obtain ⟨hmember, hwritten⟩ := forall_mem_cons.mp h
    rw [flatMap_cons, append_assoc]
    exact reads_member hmember (ih hwritten)

/-- What stands behind does not go on with the declaration of a global variable. -/
def Apart (t : Tokens) : Prop := ∃ token, t.first = .ok token ∧
  token.lexeme ≠ .keyword .place ∧ token.lexeme ≠ .mark .semicolon

theorem reads_global {placement : Option Placement} {placeTokens last : List Token}
    (h : Grammar.Place placeTokens placement)
    (hlast : last = [] ∨ ∃ close, last = [⟨.mark .semicolon, close⟩]) (hrest : Apart ⟨rest, e⟩) :
    ∃ a, ReadsPlacement ⟨placeTokens ++ (last ++ rest), e⟩ (.ok placement) a ∧
      ReadsSemicolon a ⟨rest, e⟩ := by
  obtain ⟨token, hfirst, hplace, hsemicolon⟩ := hrest
  have habsent : ReadsPlacement ⟨rest, e⟩ (.ok none) ⟨rest, e⟩ := .absent hfirst hplace
  have hopen : ReadsSemicolon ⟨rest, e⟩ ⟨rest, e⟩ := by
    refine .absent fun pos hnext => ?_
    cases hfirst.symm.trans hnext
    exact hsemicolon rfl
  cases h <;> obtain rfl | ⟨close, rfl⟩ := hlast
  · exact ⟨_, habsent, hopen⟩
  · exact ⟨_, .absent rfl nofun, .taken rfl⟩
  · exact ⟨_, .location rfl (.taken rfl rfl), hopen⟩
  · exact ⟨_, .location rfl (.taken rfl rfl), .taken rfl⟩

theorem direction?_keyword {way : Direction} {keyword : Keyword}
    (h : directionKeyword way = some keyword) : direction? (.keyword keyword) = some way := by
  cases way <;> cases h <;> rfl

theorem stage?_name {stage : Stage} (h : stageName stage = some text) :
    stage? text = some stage := by
  cases stage <;> cases h
  · rfl
  · decide

theorem reads_item {x : Item} (h : TopLevel used x) (hrest : Apart ⟨rest, e⟩) :
    ReadsItem ⟨used ++ rest, e⟩ (.ok x) ⟨rest, e⟩ := by
  cases h with
  | stage hname hargument =>
    exact .tagged rfl (.stage names_sym hname
      (.known (.mk expects_mark names_sym expects_mark rfl) (stage?_name hargument)) expects_mark)
  | builtin hname hargument =>
    exact .tagged rfl (.builtin names_sym hname
      (.known (.mk expects_mark names_sym expects_mark rfl) (if_pos hargument)) expects_mark)
  | global hkeyword htype hplace hlast =>
    obtain ⟨a, hplaced, hsemicolon⟩ := reads_global (e := e) hplace hlast hrest
    simp only [append_assoc]
    exact .global rfl (direction?_keyword hkeyword) names_sym expects_mark (reads_type htype _)
      hplaced hsemicolon
  | record hmembers =>
    simp only [append_assoc]
    exact .record rfl names_sym (reads_members hmembers)
  | @procedure pos namePos paren unparen arrow close text _ _ result body htype hbody =>
    have hclose : ReadsBlock ⟨⟨.keyword .close, close⟩ :: rest, e⟩ [] (.ok close) ⟨rest, e⟩ :=
      .close rfl
    have hblock := reads_statements hbody hclose
    rw [append_nil] at hblock
    simp only [append_assoc]
    exact .procedure rfl names_sym expects_mark expects_mark expects_mark (reads_type htype _)
      hblock

theorem apart_file (h : File used items) (hrest : Apart ⟨rest, e⟩) :
    Apart ⟨used ++ rest, e⟩ := by
  cases h with
  | done => exact hrest
  | next hitem _ =>
    cases hitem with
    | global hkeyword =>
      refine ⟨_, rfl, ?_, nofun⟩
      rintro ⟨⟩
      cases direction?_keyword hkeyword
    | _ => exact ⟨_, rfl, nofun, nofun⟩

theorem reads_file (h : File used items) (hrest : Apart ⟨rest, e⟩) {tree : SourceTree}
    (htree : ReadsItems ⟨rest, e⟩ tree) :
    ReadsItems ⟨used ++ rest, e⟩ ⟨items ++ tree.items, tree.ending⟩ := by
  induction h with
  | done => exact htree
  | next hitem hfile ih =>
    rw [append_assoc]
    refine .next ?_ (reads_item hitem (apart_file hfile hrest)) ih
    cases hitem <;> nofun

end Reading

theorem SourceTree.ofTokens_file {used : List Token} (h : Grammar.File used items) (e : Position) :
    SourceTree.ofTokens ⟨used, .ok e⟩ = ⟨items, .ok e⟩ := by
  have hdone : Reading.ReadsItems ⟨[], .ok e⟩ ⟨[], .ok e⟩ := .done rfl
  have hapart : Reading.Apart ⟨[], .ok e⟩ := ⟨_, rfl, nofun, nofun⟩
  have hread := Reading.reads_file h hapart hdone
  simp only [append_nil] at hread
  exact (eq_ofTokens hread).symm

end Shading
