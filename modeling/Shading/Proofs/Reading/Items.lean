import Shading.Proofs.Lexing
import Shading.Proofs.Reading.Expressions
import Shading.Proofs.Types

/-!
Reading whole sources follows the grammar: a source whose tree ends well is
written with exactly its tokens, and all types in it have two, three or four
components.
-/

namespace Shading

variable {text : Bytes}

namespace Reading

open Grammar

variable {left right : Tokens} {e : Position}

theorem Names.takes {called : Name} (h : Names left (.ok called) right) :
    Takes left right [⟨.sym called.text, called.pos⟩] := by
  cases h with
  | taken hfirst haccept =>
    rename_i token
    obtain ⟨lexeme, pos⟩ := token
    cases lexeme <;> cases haccept
    exact .first hfirst nofun

theorem Integers.takes {value : Int64 × Position} (h : Integers left (.ok value) right) :
    Takes left right [⟨.integer value.1, value.2⟩] := by
  cases h with
  | taken hfirst haccept =>
    rename_i token
    obtain ⟨lexeme, pos⟩ := token
    cases lexeme <;> cases haccept
    exact .first hfirst nofun

theorem ReadsType.written {x : TypeSyntax} (h : ReadsType left x right)
    (hend : right.ending = .ok e) : ∃ used, Takes left right used ∧ WrittenType used x := by
  induction h with
  | named hname hsize => exact ⟨_, hname.takes, .named hsize⟩
  | vector hname hsize hless _ hclose ih =>
    obtain ⟨hc, _, rfl⟩ := hclose.ended_well hend
    obtain ⟨used, htakes, hwritten⟩ := ih hc
    obtain ⟨_, _, rfl⟩ := hless.ended_well (htakes.ending.trans hc)
    exact ⟨_, hname.takes.trans (hless.takes.trans (htakes.trans hclose.takes)),
      .vector hsize hwritten⟩
  | missing hname =>
    obtain ⟨_, _, ⟨⟩⟩ := hname.ended_well hend

theorem ReadsExpression.written {x : Expr} (h : ReadsExpression left x right)
    (hend : right.ending = .ok e) : ∃ used, Takes left right used ∧ Expression .sum used x := by
  obtain ⟨used, htakes, hwritten⟩ := Reads.written h (h.whole hend trivial)
  exact ⟨used, htakes, hwritten x (.head _)⟩

theorem ReadsStatement.written {x : Stmt} (h : ReadsStatement left x right)
    (hend : right.ending = .ok e) : ∃ used, Takes left right used ∧ Statements used [x] := by
  cases h with
  | declare hfirst hcalled hcolon htype hequal hvalue hclose =>
    obtain ⟨he, _, rfl⟩ := hclose.ended_well hend
    obtain ⟨_, hvalue, hvalueWritten⟩ := hvalue.written he
    obtain ⟨hc, _, rfl⟩ := hequal.ended_well (hvalue.ending.trans he)
    obtain ⟨_, htype, htypeWritten⟩ := htype.written hc
    obtain ⟨ha, _, rfl⟩ := hcolon.ended_well (htype.ending.trans hc)
    obtain ⟨_, _, rfl⟩ := hcalled.ended_well ha
    exact ⟨_, (Takes.first hfirst nofun).trans (hcalled.takes.trans (hcolon.takes.trans
      (htype.trans (hequal.takes.trans (hvalue.trans hclose.takes))))),
      .declare htypeWritten hvalueWritten⟩
  | leave hfirst hnext =>
    exact ⟨_, (Takes.first hfirst nofun).trans (.first hnext nofun), .leave⟩
  | giveBack hfirst _ hvalue hclose =>
    obtain ⟨ha, _, rfl⟩ := hclose.ended_well hend
    obtain ⟨_, hvalue, hwritten⟩ := hvalue.written ha
    exact ⟨_, (Takes.first hfirst nofun).trans (hvalue.trans hclose.takes), .giveBack hwritten⟩
  | simple _ _ h =>
    cases h with
    | evaluate hvalue hclose =>
      obtain ⟨_, hvalue, hwritten⟩ := hvalue.written hend
      exact ⟨_, hvalue.trans (.first hclose nofun), .evaluate hwritten⟩
    | assign htarget hassign hvalue hclose =>
      obtain ⟨hb, _, rfl⟩ := hclose.ended_well hend
      obtain ⟨_, hvalue, hwritten⟩ := hvalue.written hb
      obtain ⟨_, htarget, htargetWritten⟩ := htarget.written (hvalue.ending.trans hb)
      exact ⟨_, htarget.trans ((Takes.first hassign nofun).trans (hvalue.trans hclose.takes)),
        .assign htargetWritten hwritten⟩
    | refused => cases hend
    | failed _ hfirst => cases (ending_of_first hfirst).symm.trans hend

theorem ReadsBlock.written {stmts : List Stmt} {close : Part Position}
    (h : ReadsBlock left stmts close right) (hend : right.ending = .ok e) :
    ∃ used pos, close = .ok pos ∧ Takes left right (used ++ [⟨.keyword .close, pos⟩]) ∧
      Statements used stmts := by
  induction h with
  | close hfirst => exact ⟨[], _, rfl, .first hfirst nofun, .done⟩
  | group hfirst _ _ ihinner ihrest =>
    obtain ⟨used', pos, rfl, hrest, hwritten'⟩ := ihrest hend
    obtain ⟨used, _, rfl, hinner, hwritten⟩ := ihinner (hrest.ending.trans hend)
    refine ⟨_, pos, rfl, ?_, .next (.group hwritten) hwritten'⟩
    rw [List.append_assoc]
    exact ((Takes.first hfirst nofun).trans hinner).trans hrest
  | statement hx _ ih =>
    obtain ⟨used', pos, rfl, hrest, hwritten'⟩ := ih hend
    obtain ⟨used, hx, hwritten⟩ := hx.written (hrest.ending.trans hend)
    refine ⟨_, pos, rfl, ?_, .next hwritten hwritten'⟩
    rw [List.append_assoc]
    exact hx.trans hrest
  | unclosed => cases hend
  | failed hfirst => cases (ending_of_first hfirst).symm.trans hend

theorem Tells.written {α : Type} {meaning : Bytes → Option α} {unknown : Bytes → Cause} {x : Part α}
    (h : Tells meaning unknown left x right) (hend : right.ending = .ok e) :
    ∃ (paren : Position) (called : Name) (unparen : Position) (a : α), x = .ok a ∧
      meaning called.text = some a ∧ Takes left right [⟨.mark .leftParen, paren⟩,
        ⟨.sym called.text, called.pos⟩, ⟨.mark .rightParen, unparen⟩] := by
  have hargument : ∀ {x}, ReadsArgument left x right → ∃ paren called unparen, x = .ok called ∧
      Takes left right [⟨.mark .leftParen, paren⟩, ⟨.sym called.text, called.pos⟩,
        ⟨.mark .rightParen, unparen⟩] := by
    rintro x ⟨hopen, hcalled, hclose, rfl⟩
    obtain ⟨hb, _, rfl⟩ := hclose.ended_well hend
    obtain ⟨ha, called, rfl⟩ := hcalled.ended_well hb
    obtain ⟨_, _, rfl⟩ := hopen.ended_well ha
    exact ⟨_, called, _, rfl, hopen.takes.trans (hcalled.takes.trans hclose.takes)⟩
  cases h with
  | known hcalled hmeaning =>
    obtain ⟨paren, called, unparen, ⟨⟩, htakes⟩ := hargument hcalled
    exact ⟨paren, _, unparen, _, rfl, hmeaning, htakes⟩
  | unknown => cases hend
  | failed hcalled => obtain ⟨_, _, _, ⟨⟩, _⟩ := hargument hcalled

theorem stage?_eq {stage : Stage} (h : stage? text = some stage) : stageName stage = some text := by
  simp only [stage?] at h
  split at h
  · next htext =>
    cases h
    exact congrArg some htext.symm
  · split at h
    · next htext =>
      cases h
      exact congrArg some htext.symm
    · cases h

theorem builtin?_eq {builtin : Builtin} (h : builtin? text = some builtin) :
    text = Text.utf8 "position" ∧ builtin = .position := by
  simp only [builtin?] at h
  split at h
  · next htext => exact ⟨htext, (Option.some.inj h).symm⟩
  · cases h

theorem ReadsMemberAttribute.written {x : Part Builtin} (h : ReadsMemberAttribute left x right)
    (hend : right.ending = .ok e) :
    ∃ used builtin, x = .ok builtin ∧ Takes left right used ∧ MemberAttribute used builtin := by
  cases h with
  | absent => exact ⟨[], _, rfl, .refl _, .absent⟩
  | builtin hfirst hcalled hname hfound hclose hx =>
    subst hx
    obtain ⟨hb, _, rfl⟩ := hclose.ended_well hend
    obtain ⟨_, argument, _, found, rfl, hmeaning, htells⟩ := hfound.written hb
    obtain ⟨hposition, rfl⟩ := builtin?_eq hmeaning
    exact ⟨_, _, rfl, (Takes.first hfirst nofun).trans (hcalled.takes.trans
      (htells.trans hclose.takes)), .position hname hposition⟩
  | unknown => cases hend
  | failed _ hcalled => obtain ⟨_, _, ⟨⟩⟩ := hcalled.ended_well hend

theorem ReadsMembers.written {fields : List MemberSyntax} {end' : Part Position}
    (h : ReadsMembers left fields end' right) (hend : right.ending = .ok e) :
    ∃ (written : List (List Token × MemberSyntax)) (pos : Position),
      fields = written.map (·.2) ∧ end' = .ok pos ∧
        Takes left right (written.flatMap (·.1) ++ [⟨.keyword .close, pos⟩]) ∧
        ∀ member ∈ written, Grammar.Member member.1 member.2 := by
  induction h with
  | close hfirst => exact ⟨[], _, rfl, rfl, .first hfirst nofun, List.forall_mem_nil _⟩
  | member _ _ hmeaning hcalled hcolon htype hclose _ ih =>
    obtain ⟨written, pos, rfl, rfl, hrest, hmembers⟩ := ih hend
    obtain ⟨hd, _, rfl⟩ := hclose.ended_well (hrest.ending.trans hend)
    obtain ⟨_, htype, htypeWritten⟩ := htype.written hd
    obtain ⟨hb, _, rfl⟩ := hcolon.ended_well (htype.ending.trans hd)
    obtain ⟨ha, _, rfl⟩ := hcalled.ended_well hb
    obtain ⟨_, builtin, rfl, hattribute, hmeaning⟩ := hmeaning.written ha
    have htakes := (hattribute.trans (hcalled.takes.trans (hcolon.takes.trans (htype.trans
      hclose.takes)))).trans hrest
    rw [← List.append_assoc] at htakes
    exact ⟨(_, _) :: written, pos, rfl, rfl, htakes,
      List.forall_mem_cons.mpr ⟨.member hmeaning htypeWritten, hmembers⟩⟩
  | failed hfirst => cases (ending_of_first hfirst).symm.trans hend

theorem ReadsPlacement.written {x : Part (Option Placement)} (h : ReadsPlacement left x right)
    (hend : right.ending = .ok e) :
    ∃ used placement, x = .ok placement ∧ Takes left right used ∧ Grammar.Place used placement := by
  cases h with
  | location hfirst hvalue =>
    obtain ⟨_, value, rfl⟩ := hvalue.ended_well hend
    exact ⟨_, _, rfl, (Takes.first hfirst nofun).trans hvalue.takes, .location⟩
  | absent => exact ⟨[], none, rfl, .refl _, .absent⟩
  | failed hfirst => cases (ending_of_first hfirst).symm.trans hend

theorem ReadsSemicolon.written (h : ReadsSemicolon left right) :
    ∃ last, Takes left right last ∧ (last = [] ∨ ∃ close, last = [⟨.mark .semicolon, close⟩]) := by
  cases h with
  | taken hfirst => exact ⟨_, .first hfirst nofun, .inr ⟨_, rfl⟩⟩
  | absent => exact ⟨[], .refl _, .inl rfl⟩

theorem direction?_eq {lexeme : Lexeme} {way : Direction} (h : direction? lexeme = some way) :
    ∃ keyword, lexeme = .keyword keyword ∧ directionKeyword way = some keyword := by
  cases lexeme with
  | keyword word => cases word <;> cases h <;> exact ⟨_, rfl, rfl⟩
  | _ => cases h

theorem ReadsItem.written {x : Part Item} (h : ReadsItem left x right)
    (hend : right.ending = .ok e) :
    ∃ used item, x = .ok item ∧ Takes left right used ∧ TopLevel used item := by
  cases h with
  | tagged hfirst hfound =>
    cases hfound with
    | stage hcalled hname hfound hclose =>
      obtain ⟨hb, _, rfl⟩ := hclose.ended_well hend
      obtain ⟨_, argument, _, _, ⟨⟩, hmeaning, htells⟩ := hfound.written hb
      exact ⟨_, _, rfl, (Takes.first hfirst nofun).trans (hcalled.takes.trans
        (htells.trans hclose.takes)), .stage hname (stage?_eq hmeaning)⟩
    | builtin hcalled hname hfound hclose =>
      obtain ⟨hb, _, rfl⟩ := hclose.ended_well hend
      obtain ⟨_, argument, _, _, ⟨⟩, hmeaning, htells⟩ := hfound.written hb
      obtain ⟨hposition, rfl⟩ := builtin?_eq hmeaning
      exact ⟨_, _, rfl, (Takes.first hfirst nofun).trans (hcalled.takes.trans
        (htells.trans hclose.takes)), .builtin hname hposition⟩
    | noStage _ _ hfound | noBuiltin _ _ hfound => obtain ⟨_, _, _, _, ⟨⟩, _⟩ := hfound.written hend
    | unknown => cases hend
    | failed hcalled => obtain ⟨_, _, ⟨⟩⟩ := hcalled.ended_well hend
  | procedure hfirst hcalled hopen hclose harrow htype hblock =>
    obtain ⟨_, _, rfl, hblock, hbody⟩ := hblock.written hend
    have he := hblock.ending.trans hend
    obtain ⟨_, htype, hresult⟩ := htype.written he
    obtain ⟨hc, _, rfl⟩ := harrow.ended_well (htype.ending.trans he)
    obtain ⟨hb, _, rfl⟩ := hclose.ended_well hc
    obtain ⟨ha, _, rfl⟩ := hopen.ended_well hb
    obtain ⟨_, _, rfl⟩ := hcalled.ended_well ha
    exact ⟨_, _, rfl, (Takes.first hfirst nofun).trans (hcalled.takes.trans (hopen.takes.trans
      (hclose.takes.trans (harrow.takes.trans (htype.trans hblock))))), .procedure hresult hbody⟩
  | record hfirst hcalled hfields =>
    obtain ⟨written, _, rfl, rfl, hfields, hmembers⟩ := hfields.written hend
    obtain ⟨_, _, rfl⟩ := hcalled.ended_well (hfields.ending.trans hend)
    exact ⟨_, _, rfl, (Takes.first hfirst nofun).trans (hcalled.takes.trans hfields),
      .record hmembers⟩
  | global hfirst hway hcalled hcolon htype hplaced hsemicolon =>
    obtain ⟨last, hlast, hmark⟩ := hsemicolon.written
    have hd := hlast.ending.trans hend
    obtain ⟨_, placement, rfl, hplaced, hplace⟩ := hplaced.written hd
    have hc := hplaced.ending.trans hd
    obtain ⟨_, htype, hwritten⟩ := htype.written hc
    obtain ⟨ha, _, rfl⟩ := hcolon.ended_well (htype.ending.trans hc)
    obtain ⟨_, _, rfl⟩ := hcalled.ended_well ha
    obtain ⟨keyword, rfl, hkeyword⟩ := direction?_eq hway
    exact ⟨_, _, rfl, (Takes.first hfirst nofun).trans (hcalled.takes.trans (hcolon.takes.trans
      (htype.trans (hplaced.trans hlast)))), .global hkeyword hwritten hplace hmark⟩
  | refused => cases hend

theorem ReadsItems.written {tree : SourceTree} (h : ReadsItems left tree)
    (hend : tree.ending = .ok e) : left.ending = .ok e ∧ File left.tokens tree.items := by
  induction h with
  | done hleft => exact ⟨hend, hleft ▸ .done⟩
  | next _ hx _ ih =>
    obtain ⟨ha, hfile⟩ := ih hend
    obtain ⟨used, item, ⟨⟩, htakes, hitem⟩ := hx.written ha
    exact ⟨htakes.ending.trans ha, htakes.tokens ▸ .next hitem hfile⟩
  | failed => cases hend

end Reading

theorem SourceTree.ending_ofTokens {tokens : Tokens} {e : Position}
    (h : (SourceTree.ofTokens tokens).ending = .ok e) : tokens.ending = .ok e :=
  ((ofTokens_reads tokens).written h).1

theorem Grammar.file_ofSource {source : Bytes} {end' : Position}
    (hend : (SourceTree.ofSource source).ending = .ok end') :
    File (Tokens.ofSource source).tokens (SourceTree.ofSource source).items :=
  ((SourceTree.ofTokens_reads _).written hend).2

namespace Marks

variable {m : Marks}

theorem sized_of_type {written : TypeSyntax} (h : m.type written) : written.Sized := by
  induction written with
  | vector pos size component close ih => exact ⟨h.2.1, ih h.2.2.1⟩
  | _ => trivial

mutual

theorem sized_of_stmt (x : Stmt) (h : m.stmt x) : ∀ written ∈ x.types, written.Sized := by
  cases x with
  | declare pos name type equal value close =>
    rw [Stmt.types]
    exact List.forall_mem_singleton.mpr (sized_of_type h.2.2.1)
  | group pos body close =>
    rw [Stmt.types]
    exact sized_of_block body h.2.1
  | _ => nofun

theorem sized_of_block (l : List Stmt) (h : m.block l) :
    ∀ written ∈ blockTypes l, written.Sized := by
  cases l with
  | nil => nofun
  | cons next rest =>
    rw [blockTypes]
    exact List.forall_mem_append.mpr ⟨sized_of_stmt next h.1, sized_of_block rest h.2.2⟩

end

theorem sized_of_item {x : Item} (h : m.item x) : ∀ written ∈ x.types, written.Sized := by
  cases x with
  | global pos direction name type placement =>
    exact List.forall_mem_singleton.mpr (sized_of_type h.2.2.1)
  | record pos name members close =>
    exact List.forall_mem_map.mpr fun written hwritten =>
      sized_of_type (h.2.2.1 written hwritten).2.1
  | procedure pos name result body close =>
    exact List.forall_mem_cons.mpr ⟨sized_of_type h.2.2.1, sized_of_block body h.2.2.2.1⟩
  | _ => nofun

end Marks

theorem SourceTree.sized_ofSource (source : Bytes) :
    ∀ written ∈ (ofSource source).items.flatMap Item.types, written.Sized := by
  let m : Marks :=
    ⟨fun _ => True, fun _ => True, (Tokens.ofSource source).tokens.length⟩
  have htokens : m.tokens (.ofSource source) := by
    refine ⟨⟨fun token htoken => ⟨trivial, Tokens.names_ofSource source token htoken⟩,
      Nat.le_refl _⟩, ?_⟩
    cases (Tokens.ofSource source).ending <;> trivial
  have hmarked := marked htokens fun _ _ _ _ => trivial
  intro written hwritten
  obtain ⟨x, hx, hwritten⟩ := List.mem_flatMap.mp hwritten
  exact Marks.sized_of_item (hmarked.1 x hx) written hwritten

end Shading
