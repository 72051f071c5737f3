import Shading.Proofs.Reading
import Shading.Proofs.Renaming.Basic

/-!
Readers under other names. From tokens with other names a reader takes the same
tokens and makes the same tree of them, with other names: it compares a name
with reserved words only, and passes places on without a look at them.
-/

namespace Shading

variable {kind : Kind} {x : Part Item} {text : Bytes}

namespace Reading

open Position (nowhere)

variable {ρ : Renaming} {left right : Tokens} {token : Token} {why : Diagnostic}

theorem first_rename (h : left.first = .ok token) :
    (ρ.tokens left).first = .ok (ρ.token token) := by
  obtain ⟨_ | ⟨_, _⟩, _ | _⟩ := left <;> cases h <;> rfl

theorem failure_rename (h : left.first = .error why) :
    (ρ.tokens left).first = .error (ρ.diagnostic why) := by
  obtain ⟨_ | ⟨_, _⟩, _ | _⟩ := left <;> cases h
  rfl

theorem behind_rename : ρ.tokens left.behind = (ρ.tokens left).behind := by
  obtain ⟨_ | ⟨_, _⟩, _⟩ := left <;> rfl

theorem kind_token (token : Token) : (ρ.token token).kind = token.kind := by
  obtain ⟨lexeme, pos⟩ := token
  cases lexeme <;> rfl

theorem keyword_ne_rename {k : Keyword} (h : token.lexeme ≠ .keyword k) :
    (ρ.token token).lexeme ≠ .keyword k := by
  obtain ⟨lexeme, pos⟩ := token
  cases lexeme with
  | sym => nofun
  | _ => exact h

theorem part_bind {α β : Type} {f : α → β} (close : Part Position) (x : Part α) :
    ρ.part f (close >>= fun _ => x) = (ρ.place close >>= fun _ => ρ.part f x) := by
  cases close <;> rfl

theorem first_ne_rename {m : Mark} (h : ∀ pos, left.first ≠ .ok ⟨.mark m, pos⟩) (pos : Position) :
    (ρ.tokens left).first ≠ .ok ⟨.mark m, pos⟩ := by
  cases hfirst : left.first with
  | error why =>
    rw [failure_rename hfirst]
    nofun
  | ok token =>
    obtain ⟨lexeme, place⟩ := token
    rw [first_rename hfirst]
    cases lexeme with
    | mark k =>
      rintro ⟨⟩
      exact h place hfirst
    | _ => nofun

theorem TakesOne.rename {α β : Type} {accept : Token → Option α} {accept' : Token → Option β}
    {f : α → β} {x : Part α} (h : TakesOne kind accept left x right)
    (haccept : ∀ token, accept' (ρ.token token) = (accept token).map f) :
    TakesOne kind accept' (ρ.tokens left) (ρ.part f x) (ρ.tokens right) := by
  cases h with
  | taken hfirst ha =>
    rw [behind_rename]
    exact .taken (first_rename hfirst) (by rw [haccept, ha]; rfl)
  | refused hfirst ha hwhy =>
    subst hwhy
    refine .refused (first_rename hfirst) (by rw [haccept, ha]; rfl) ?_
    rw [kind_token]
    rfl
  | failed hfirst =>
    rw [behind_rename]
    exact .failed (failure_rename hfirst)

theorem Expects.rename {x : Part Position} (h : Expects kind left x right) :
    Expects kind (ρ.tokens left) (ρ.place x) (ρ.tokens right) := by
  refine TakesOne.rename h fun token => ?_
  rw [kind_token]
  split <;> rfl

theorem Names.rename {x : Part Name} (h : Names left x right) :
    Names (ρ.tokens left) (ρ.part ρ.name x) (ρ.tokens right) := by
  refine TakesOne.rename h fun token => ?_
  obtain ⟨lexeme, pos⟩ := token
  cases lexeme <;> rfl

theorem Integers.rename {x : Part (Int64 × Position)} (h : Integers left x right) :
    Integers (ρ.tokens left) (ρ.part (fun v => (v.1, nowhere)) x) (ρ.tokens right) := by
  refine TakesOne.rename h fun token => ?_
  obtain ⟨lexeme, pos⟩ := token
  cases lexeme <;> rfl

theorem vectorSize?_word (ρ : Renaming) (text : Bytes) :
    vectorSize? (ρ.word text) = vectorSize? text := by
  simp only [vectorSize?, ρ.word_reserved (w := Text.utf8 "vec2") (by simp [reservedWords]),
    ρ.word_reserved (w := Text.utf8 "vec3") (by simp [reservedWords]),
    ρ.word_reserved (w := Text.utf8 "vec4") (by simp [reservedWords])]

theorem ReadsType.rename {x : TypeSyntax} (h : ReadsType left x right) :
    ReadsType (ρ.tokens left) (ρ.type x) (ρ.tokens right) := by
  induction h with
  | named hname hsize => exact .named hname.rename ((vectorSize?_word ρ _).trans hsize)
  | vector hname hsize hless _ hclose ih =>
    exact .vector hname.rename ((vectorSize?_word ρ _).trans hsize) hless.rename ih hclose.rename
  | missing hname => exact .missing hname.rename

section Lexemes

variable {lexeme : Lexeme}

@[simp] theorem startsExpression_rename :
    startsExpression (lexeme.mapName ρ.word) = startsExpression lexeme := by
  cases lexeme <;> rfl

@[simp] theorem endsExpression_rename :
    endsExpression (lexeme.mapName ρ.word) = endsExpression lexeme := by
  cases lexeme <;> rfl

@[simp] theorem startsSimple_rename :
    startsSimple (lexeme.mapName ρ.word) = startsSimple lexeme := by
  cases lexeme <;> rfl

@[simp] theorem direction?_rename : direction? (lexeme.mapName ρ.word) = direction? lexeme := by
  cases lexeme <;> rfl

@[simp] theorem startsItem_rename : startsItem (lexeme.mapName ρ.word) = startsItem lexeme := by
  cases lexeme <;> rfl

@[simp] theorem scaleOperator?_rename :
    scaleOperator? (lexeme.mapName ρ.word) = scaleOperator? lexeme := by
  cases lexeme <;> rfl

@[simp] theorem sumOperator?_rename :
    sumOperator? (lexeme.mapName ρ.word) = sumOperator? lexeme := by
  cases lexeme <;> rfl

end Lexemes

def Section.rename (ρ : Renaming) : Section → Section
  | .factors x => .factors (ρ.expr x)
  | .terms x => .terms (ρ.expr x)
  | part => part

theorem Reads.rename {part : Section} {xs : List Expr} (h : Reads part left xs right) :
    Reads (part.rename ρ) (ρ.tokens left) (ρ.exprs xs) (ρ.tokens right) := by
  induction h with
  | var h =>
    rw [behind_rename]
    exact .var (first_rename h)
  | number h =>
    rw [behind_rename]
    exact .number (first_rename h)
  | paren h _ hclose ih =>
    exact .paren (first_rename h) (behind_rename ▸ ih) hclose.rename
  | vector h _ _ hclose ihx ihrest =>
    exact .vector (first_rename h) (behind_rename ▸ ihx) ihrest hclose.rename
  | refused h hstarts hwhy =>
    subst hwhy
    exact .refused (first_rename h) (startsExpression_rename.trans hstarts) rfl
  | failed h =>
    rw [behind_rename]
    exact .failed (failure_rename h)
  | factor h hop _ _ ihr ihy =>
    exact .factor (first_rename h) (scaleOperator?_rename.trans hop) (behind_rename ▸ ihr) ihy
  | factored h hop => exact .factored (first_rename h) (scaleOperator?_rename.trans hop)
  | stopped h => exact .stopped (failure_rename h)
  | product _ _ ihx ihy => exact .product ihx ihy
  | term h hop _ _ ihr ihy =>
    exact .term (first_rename h) (sumOperator?_rename.trans hop) (behind_rename ▸ ihr) ihy
  | @summed x left h =>
    refine .summed fun token htoken => ?_
    cases hfirst : left.first with
    | error why => cases (failure_rename hfirst).symm.trans htoken
    | ok found =>
      cases (first_rename hfirst).symm.trans htoken
      exact sumOperator?_rename.trans (h found hfirst)
  | sum _ _ ihx ihy => exact .sum ihx ihy
  | element h _ _ ihx ihrest =>
    exact .element (first_rename h) (behind_rename ▸ ihx) ihrest
  | listed h => exact .listed (first_ne_rename h)

theorem ReadsSimple.rename {x : Stmt} (h : ReadsSimple left x right) :
    ReadsSimple (ρ.tokens left) (ρ.stmt x) (ρ.tokens right) := by
  cases h with
  | evaluate hvalue hclose =>
    rw [behind_rename]
    exact .evaluate hvalue.rename (first_rename hclose)
  | assign htarget hassign hvalue hclose =>
    exact .assign htarget.rename (first_rename hassign) (behind_rename ▸ hvalue.rename)
      hclose.rename
  | refused hvalue h hends hwhy =>
    subst hwhy
    exact .refused hvalue.rename (first_rename h) (endsExpression_rename.trans hends) rfl
  | failed hvalue h =>
    rw [behind_rename]
    exact .failed hvalue.rename (failure_rename h)

theorem ReadsStatement.rename {x : Stmt} (h : ReadsStatement left x right) :
    ReadsStatement (ρ.tokens left) (ρ.stmt x) (ρ.tokens right) := by
  cases h with
  | declare h hcalled hcolon htype hequal hvalue hclose =>
    exact .declare (first_rename h) (behind_rename ▸ hcalled.rename) hcolon.rename htype.rename
      hequal.rename hvalue.rename hclose.rename
  | leave h hclose =>
    rw [behind_rename, behind_rename]
    exact .leave (first_rename h) (behind_rename ▸ first_rename hclose)
  | giveBack h hne hvalue hclose =>
    exact .giveBack (first_rename h) (behind_rename ▸ first_ne_rename hne)
      (behind_rename ▸ hvalue.rename) hclose.rename
  | simple h hstarts hsimple =>
    exact .simple (first_rename h) (startsSimple_rename.trans hstarts) hsimple.rename

theorem ReadsBlock.rename {stmts : List Stmt} {close : Part Position}
    (h : ReadsBlock left stmts close right) :
    ReadsBlock (ρ.tokens left) (ρ.stmts stmts) (ρ.place close) (ρ.tokens right) := by
  induction h with
  | close h =>
    rw [behind_rename]
    exact .close (first_rename h)
  | group h _ _ ihinner ihrest =>
    exact .group (first_rename h) (behind_rename ▸ ihinner) ihrest
  | statement hx _ ih => exact .statement hx.rename ih
  | unclosed h hwhy =>
    subst hwhy
    exact .unclosed (first_rename h) rfl
  | failed h => exact .failed (failure_rename h)

theorem Tells.rename {α : Type} {meaning : Bytes → Option α} {unknown : Bytes → Cause} {x : Part α}
    (h : Tells meaning unknown left x right)
    (hmeaning : ∀ text, meaning (ρ.word text) = meaning text)
    (hunknown : ∀ text, ρ.cause (unknown text) = unknown (ρ.word text)) :
    Tells meaning unknown (ρ.tokens left) (ρ.part id x) (ρ.tokens right) := by
  have hargument : ∀ {x right}, ReadsArgument left x right →
      ReadsArgument (ρ.tokens left) (ρ.part ρ.name x) (ρ.tokens right) := by
    rintro x right ⟨hopen, hcalled, hclose, rfl⟩
    exact .mk hopen.rename hcalled.rename hclose.rename (part_bind _ _)
  cases h with
  | known hcalled ha => exact .known (hargument hcalled) ((hmeaning _).trans ha)
  | unknown hcalled ha hwhy =>
    subst hwhy
    refine .unknown (hargument hcalled) ((hmeaning _).trans ha) ?_
    rw [Renaming.diagnostic, hunknown]
    rfl
  | failed hcalled => exact .failed (hargument hcalled)

theorem builtin?_word (text : Bytes) : builtin? (ρ.word text) = builtin? text := by
  simp only [builtin?, ρ.word_reserved (w := Text.utf8 "position") (by simp [reservedWords])]

theorem stage?_word (text : Bytes) : stage? (ρ.word text) = stage? text := by
  simp only [stage?, ρ.word_reserved (w := Text.utf8 "vertex") (by simp [reservedWords]),
    ρ.word_reserved (w := Text.utf8 "fragment") (by simp [reservedWords])]

theorem entryPoint_word : ρ.word text = Text.utf8 "entry_point" ↔ text = Text.utf8 "entry_point" :=
  ρ.word_reserved (by simp [reservedWords])

theorem builtin_word : ρ.word text = Text.utf8 "builtin" ↔ text = Text.utf8 "builtin" :=
  ρ.word_reserved (by simp [reservedWords])

theorem ReadsAttribute.rename (h : ReadsAttribute left x right) :
    ReadsAttribute (ρ.tokens left) (ρ.part ρ.item x) (ρ.tokens right) := by
  cases h with
  | stage hcalled hname hfound hclose =>
    exact .stage hcalled.rename (entryPoint_word.mpr hname)
      (hfound.rename stage?_word fun _ => rfl) hclose.rename
  | noStage hcalled hname hfound =>
    exact .noStage hcalled.rename (entryPoint_word.mpr hname)
      (hfound.rename stage?_word fun _ => rfl)
  | builtin hcalled hname hfound hclose =>
    exact .builtin hcalled.rename (builtin_word.mpr hname)
      (hfound.rename builtin?_word fun _ => rfl) hclose.rename
  | noBuiltin hcalled hname hfound =>
    exact .noBuiltin hcalled.rename (builtin_word.mpr hname)
      (hfound.rename builtin?_word fun _ => rfl)
  | unknown hcalled hentry hbuiltin hwhy =>
    subst hwhy
    exact .unknown hcalled.rename (mt entryPoint_word.mp hentry) (mt builtin_word.mp hbuiltin) rfl
  | failed hcalled => exact .failed hcalled.rename

theorem ReadsPlacement.rename {x : Part (Option Placement)} (h : ReadsPlacement left x right) :
    ReadsPlacement (ρ.tokens left) (ρ.part (Option.map ρ.placement) x) (ρ.tokens right) := by
  cases h with
  | location h hvalue =>
    exact .location (first_rename h) (behind_rename ▸ hvalue.rename)
  | absent h hne => exact .absent (first_rename h) (keyword_ne_rename hne)
  | failed h => exact .failed (failure_rename h)

theorem ReadsMemberAttribute.rename {x : Part Builtin} (h : ReadsMemberAttribute left x right) :
    ReadsMemberAttribute (ρ.tokens left) (ρ.part id x) (ρ.tokens right) := by
  cases h with
  | absent h => exact .absent (first_ne_rename h)
  | builtin h hcalled hname hfound hclose hx =>
    subst hx
    exact .builtin (first_rename h) (behind_rename ▸ hcalled.rename) (builtin_word.mpr hname)
      (hfound.rename builtin?_word fun _ => rfl) hclose.rename (part_bind _ _)
  | unknown h hcalled hname hwhy =>
    subst hwhy
    exact .unknown (first_rename h) (behind_rename ▸ hcalled.rename) (mt builtin_word.mp hname) rfl
  | failed h hcalled =>
    exact .failed (first_rename h) (behind_rename ▸ hcalled.rename)

theorem meaning_rename (x : Part Builtin) :
    (ρ.part id x).toOption.getD .absent = x.toOption.getD .absent := by
  cases x <;> rfl

theorem ReadsMembers.rename {fields : List MemberSyntax} {end' : Part Position}
    (h : ReadsMembers left fields end' right) :
    ReadsMembers (ρ.tokens left) (fields.map ρ.member) (ρ.place end') (ρ.tokens right) := by
  induction h with
  | close h =>
    rw [behind_rename]
    exact .close (first_rename h)
  | member h hne hmeaning hcalled hcolon htype hclose _ ih =>
    have hread := ReadsMembers.member (first_rename h) (keyword_ne_rename hne) hmeaning.rename
      hcalled.rename hcolon.rename htype.rename hclose.rename ih
    rw [meaning_rename] at hread
    exact hread
  | failed h => exact .failed (failure_rename h)

theorem ReadsItem.rename (h : ReadsItem left x right) :
    ReadsItem (ρ.tokens left) (ρ.part ρ.item x) (ρ.tokens right) := by
  cases h with
  | tagged h hfound =>
    exact .tagged (first_rename h) (behind_rename ▸ hfound.rename)
  | procedure h hcalled hopen hclose harrow htype hblock =>
    exact .procedure (first_rename h) (behind_rename ▸ hcalled.rename) hopen.rename hclose.rename
      harrow.rename htype.rename hblock.rename
  | record h hcalled hfields =>
    exact .record (first_rename h) (behind_rename ▸ hcalled.rename) hfields.rename
  | global h hway hcalled hcolon htype hplaced hsemicolon =>
    refine .global (first_rename h) (direction?_rename.trans hway) (behind_rename ▸ hcalled.rename)
      hcolon.rename htype.rename hplaced.rename ?_
    cases hsemicolon with
    | taken h =>
      rw [behind_rename]
      exact .taken (first_rename h)
    | absent h => exact .absent (first_ne_rename h)
  | refused h hstarts hwhy =>
    subst hwhy
    exact .refused (first_rename h) (startsItem_rename.trans hstarts) rfl

end Reading

theorem SourceTree.ofTokens_rename (ρ : Renaming) (tokens : Tokens) :
    ofTokens (ρ.tokens tokens) = ρ.tree (ofTokens tokens) := by
  refine (eq_ofTokens ?_).symm
  have hread := ofTokens_reads tokens
  generalize ofTokens tokens = tree at hread ⊢
  induction hread with
  | done hleft => exact .done (by rw [Renaming.tokens, hleft]; rfl)
  | next hleft hx _ ih => exact .next (by simpa [Renaming.tokens] using hleft) hx.rename ih
  | failed hleft hx => exact .failed (by simpa [Renaming.tokens] using hleft) hx.rename

end Shading
