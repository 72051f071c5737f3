import Shading.Proofs.Compilation
import Shading.Proofs.Grammar.Productions
import Shading.Proofs.Reading.Completeness
import Shading.Proofs.Safety.Diagnostics
import Shading.Proofs.Safety.Overlong

/-!
Sources are accepted only if the grammar derives their tokens, and what it
derives is never refused for its syntax. Trees that the grammar writes have no
missing parts, so an elaboration that stops has found a rule of the language
broken or a pool full.
-/

namespace Shading

open List

variable {source : Bytes}

def Marks.whole (size : Nat) : Marks where
  place _ := True
  hole _ := False
  size := size

namespace Grammar

def Covers (size : Nat) (tokens : List Token) : Prop :=
  tokens.length ≤ size ∧ ∀ token ∈ tokens, ∀ text, token.lexeme = .sym text →
    Lexeme.isIdentifier text = true

namespace Covers

variable {size : Nat} {tokens tokens' : List Token}

theorem left (h : Covers size (tokens ++ tokens')) : Covers size tokens := by
  have hlength := h.1
  rw [length_append] at hlength
  exact ⟨by omega, fun token htoken => h.2 token (mem_append_left _ htoken)⟩

theorem right (h : Covers size (tokens ++ tokens')) : Covers size tokens' := by
  have hlength := h.1
  rw [length_append] at hlength
  exact ⟨by omega, fun token htoken => h.2 token (mem_append_right _ htoken)⟩

theorem called {text : Bytes} {pos : Position} (h : Covers size [⟨.sym text, pos⟩]) :
    (Marks.whole size).called ⟨text, pos⟩ := ⟨trivial, h.2 _ mem_cons_self text rfl⟩

theorem of_mem_flatMap {α : Type} {parts : List α} {write : α → List Token} {part : α}
    (h : Covers size (parts.flatMap write)) (hpart : part ∈ parts) : Covers size (write part) := by
  induction parts with
  | nil => exact (not_mem_nil hpart).elim
  | cons first rest ih =>
    rw [flatMap_cons] at h
    rcases mem_cons.mp hpart with rfl | hpart
    · exact h.left
    · exact ih h.right hpart

end Covers

variable {size : Nat} {tokens : List Token}

theorem WrittenType.whole {type : TypeSyntax} (h : WrittenType tokens type)
    (hsize : Covers size tokens) : (Marks.whole size).type type := by
  induction h with
  | named _ => exact ⟨trivial, Lexeme.oneLine_identifier hsize.called.2⟩
  | vector hvector _ ih =>
    exact ⟨trivial, vectorSize?_cases hvector, ih hsize.right.right.left, trivial⟩

theorem elements_whole {rest : List (Position × List Token × Expr)}
    (h : ∀ element ∈ rest, (Marks.whole size).expr element.2.2) :
    (Marks.whole size).elements (rest.map (·.2.2)) := by
  induction rest with
  | nil => trivial
  | cons element rest ih =>
    obtain ⟨helement, hrest⟩ := forall_mem_cons.mp h
    exact ⟨helement, ih hrest⟩

theorem length_le_elements (rest : List (Position × List Token × Expr)) :
    rest.length ≤
      (rest.flatMap fun element => ⟨.mark .comma, element.1⟩ :: element.2.1).length := by
  induction rest with
  | nil => exact Nat.le_refl 0
  | cons element rest ih =>
    rw [flatMap_cons, length_append, length_cons, length_cons]
    omega

theorem Expression.whole {level : Level} {x : Expr} (h : Expression level tokens x)
    (hsize : Covers size tokens) : (Marks.whole size).expr x := by
  induction h with
  | var => exact hsize.called
  | number => trivial
  | paren _ ih => exact ⟨trivial, ih hsize.left.right, trivial⟩
  | @vector pos close tokens first rest _ _ ih ihs =>
    refine ⟨trivial, ih hsize.left.left.right, ⟨elements_whole fun element helement => ?_, ?_⟩,
      trivial⟩
    · have hcomma : Covers size ([⟨.mark .comma, element.1⟩] ++ element.2.1) :=
        hsize.left.right.of_mem_flatMap helement
      exact ihs element helement hcomma.right
    · have hle := length_le_elements rest
      have hlength := hsize.left.right.1
      rw [length_map]
      exact Nat.le_trans hle hlength
  | factor _ ih | term _ ih => exact ih hsize
  | multiply _ _ ih ih' | divide _ _ ih ih' | add _ _ ih ih' | subtract _ _ ih ih' =>
    exact ⟨trivial, ih hsize.left, ih' hsize.right.right⟩

theorem Statements.whole {body : List Stmt} (h : Statements tokens body)
    (hsize : Covers size tokens) : (Marks.whole size).block body := by
  induction h with
  | done => trivial
  | next _ _ ih ih' => exact ⟨(ih hsize.left).1, trivial, ih' hsize.right⟩
  | declare htype hvalue =>
    have htyped := hsize.right.right.right
    exact ⟨⟨trivial, hsize.right.left.called, htype.whole htyped.left, trivial,
      hvalue.whole htyped.right.right.left, trivial⟩, trivial, trivial⟩
  | leave => exact ⟨⟨trivial, trivial⟩, trivial, trivial⟩
  | giveBack hvalue =>
    exact ⟨⟨trivial, hvalue.whole hsize.right.left, trivial⟩, trivial, trivial⟩
  | group _ ih => exact ⟨⟨trivial, ih hsize.right.left, trivial⟩, trivial, trivial⟩
  | evaluate hvalue => exact ⟨⟨hvalue.whole hsize.left, trivial⟩, trivial, trivial⟩
  | assign htarget hvalue =>
    exact ⟨⟨htarget.whole hsize.left, trivial, hvalue.whole hsize.right.right.left, trivial⟩,
      trivial, trivial⟩

theorem Member.whole {member : MemberSyntax} (h : Member tokens member)
    (hsize : Covers size tokens) : (Marks.whole size).member member := by
  cases h with
  | member _ htype =>
    exact ⟨hsize.right.left.called, htype.whole hsize.right.right.right.left, trivial⟩

theorem TopLevel.whole {item : Item} (h : TopLevel tokens item) (hsize : Covers size tokens) :
    (Marks.whole size).item item := by
  cases h with
  | stage | builtin => exact ⟨trivial, trivial⟩
  | global _ htype hplace _ =>
    refine ⟨trivial, hsize.right.left.called, htype.whole hsize.right.right.right.left, ?_⟩
    cases hplace with
    | absent => exact fun _ hnone => nomatch hnone
    | location =>
      rintro _ ⟨⟩
      exact ⟨trivial, trivial⟩
  | @record _ _ _ _ members hall =>
    refine ⟨trivial, hsize.right.left.called, fun written hwritten => ?_, trivial⟩
    obtain ⟨pair, hpair, rfl⟩ := mem_map.mp hwritten
    exact (hall pair hpair).whole (hsize.right.right.left.of_mem_flatMap hpair)
  | procedure htype hbody =>
    have htyped := hsize.right.right.right.right.right
    exact ⟨trivial, hsize.right.left.called, htype.whole htyped.left,
      hbody.whole htyped.right.left, trivial⟩

theorem File.whole {items : List Item} (h : File tokens items) (hsize : Covers size tokens) :
    ∀ item ∈ items, (Marks.whole size).item item := by
  induction h with
  | done => exact fun _ hnone => nomatch hnone
  | next hitem _ ih =>
    exact forall_mem_cons.mpr ⟨hitem.whole hsize.left, ih hsize.right⟩

end Grammar

theorem SourceTree.whole_ofSource {last : Position}
    (hend : (Tokens.ofSource source).ending = .ok last)
    (h : Grammar.Derives (.symbol .file) (Tokens.ofSource source).tokens) :
    (Marks.whole source.length).tree (.ofSource source) := by
  obtain ⟨items, hfile⟩ := Grammar.derives_file_iff.mp h
  have htree : SourceTree.ofSource source = ⟨items, .ok last⟩ := by
    rw [SourceTree.ofSource, ← SourceTree.ofTokens_file hfile last, ← hend]
  rw [htree]
  exact ⟨hfile.whole ⟨Tokens.length_ofSource source, Tokens.names_ofSource source⟩, trivial⟩

namespace Program

theorem derives_of_ofSource {limits : Limits} {p : Program} (h : ofSource source limits = .ok p) :
    Grammar.Derives (.symbol .file) (Tokens.ofSource source).tokens := by
  obtain ⟨last, hlast⟩ := (ofSource_built h).ending
  exact (Grammar.file_ofSource hlast).derives

/-- A source whose bytes are all tokens is accepted only if the grammar derives them. If it does,
the source is accepted or refused for a rule of the language or a limit, and never for its syntax.
Elaboration runs into a fault only if the source has 2³⁰ bytes or more and its limits allow a
literal of more than 2³⁰ elements. -/
theorem ofSource_follows_grammar (source : Bytes) (limits : Limits) {last : Position}
    (hend : (Tokens.ofSource source).ending = .ok last) :
    (∀ p, ofSource source limits = .ok p →
      Grammar.Derives (.symbol .file) (Tokens.ofSource source).tokens) ∧
    (Grammar.Derives (.symbol .file) (Tokens.ofSource source).tokens →
      (∃ p, ofSource source limits = .ok p) ∨
      (∃ why, ofSource source limits = .error (.refused why) ∧ why.cause.isSyntactic = false) ∨
      (∃ e, ofSource source limits = .error (.limit e)) ∨
      ofSource source limits = .error (.fault (.oversized .compositeConstruct)) ∧
        (Room.ofSource source limits).AllowsOverlong) := by
  refine ⟨fun p h => derives_of_ofSource h, fun h => ?_⟩
  have hallowed := ofSource_allowed limits (SourceTree.whole_ofSource hend h)
  cases hrun : ofSource source limits with
  | ok p => exact .inl ⟨p, rfl⟩
  | error e =>
    rw [hrun] at hallowed
    cases e with
    | limit e => exact .inr (.inr (.inl ⟨e, rfl⟩))
    | refused why =>
      obtain hhole | ⟨-, hcause⟩ := hallowed
      · exact hhole.elim
      · exact .inr (.inl ⟨why, rfl, hcause.isSyntactic⟩)
    | fault f =>
      obtain ⟨rfl, hroom⟩ := hallowed
      exact .inr (.inr (.inr ⟨rfl, hroom⟩))
    | assembly e => exact hallowed.elim
    | listing e => exact hallowed.elim

/-- The grammar derives a literal that is too long, and elaboration runs into a fault. -/
theorem longLiteral_breaks_grammar : ∃ last,
    (Tokens.ofSource (longLiteral (2 ^ 30))).ending = .ok last ∧
    Grammar.Derives (.symbol .file) (Tokens.ofSource (longLiteral (2 ^ 30))).tokens ∧
    ofSource (longLiteral (2 ^ 30)) LongLiteral.limits =
      .error (.fault (.oversized .compositeConstruct)) := by
  obtain ⟨_, _, _, last, htree⟩ := LongLiteral.tree (2 ^ 30)
  have hlast : (SourceTree.ofSource (longLiteral (2 ^ 30))).ending = .ok last := by rw [htree]
  exact ⟨last, SourceTree.ending_ofTokens hlast, (Grammar.file_ofSource hlast).derives,
    ofSource_longLiteral⟩

/-- A source that the grammar derives, which is accepted, and refused if there is no room for its
second expression. -/
theorem crowdedSource_follows_grammar :
    (Tokens.ofSource crowdedSource).ending = .ok ⟨2, 17⟩ ∧
    Grammar.Derives (.symbol .file) (Tokens.ofSource crowdedSource).tokens ∧
    ∃ why, ofSource crowdedSource { expressions := 1 } = .error (.refused why) ∧
      why.cause.isSyntactic = false := by
  have hend : (Tokens.ofSource crowdedSource).ending = .ok ⟨2, 17⟩ := by rfl
  have haccepted : (ofSource crowdedSource {}).isOk = true := by decide +kernel
  have hrefused : (ofSource crowdedSource { expressions := 1 }).map (fun _ => ()) =
      .error (.refused ⟨⟨2, 9⟩, .limit ⟨.expressions, 1⟩⟩) := by
    decide +kernel
  have hderives : Grammar.Derives (.symbol .file) (Tokens.ofSource crowdedSource).tokens := by
    cases h : ofSource crowdedSource {} with
    | ok p => exact (ofSource_follows_grammar crowdedSource {} hend).1 p h
    | error e =>
      rw [h] at haccepted
      cases haccepted
  refine ⟨hend, hderives, ?_⟩
  obtain ⟨p, h⟩ | hwhy | ⟨e, h⟩ | ⟨h, -⟩ :=
    (ofSource_follows_grammar crowdedSource { expressions := 1 } hend).2 hderives
  · rw [h] at hrefused
    cases hrefused
  · exact hwhy
  · rw [h] at hrefused
    cases hrefused
  · rw [h] at hrefused
    cases hrefused

end Program

end Shading
