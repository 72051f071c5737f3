import Shading.Proofs.Reading

/-!
Expressions are read as the grammar writes them. An expression of which nothing
is missing was read of the tokens that it is written with, whatever the source
has further on. Behind it stands a token, or the end of the source, that does
not continue it: readers of expressions go on as long as an operator follows.
-/

namespace Shading

open List

variable {x y : Expr} {why : Diagnostic} {m : Mark} {pos : Position} {op : ScaleOperator}
  {xs : List Expr}

namespace Reading

open Grammar (Expression Level)

variable {left mid right : Tokens} {token : Token} {used used' rest : List Token} {e : Position}
  {part : Section}

/-- The tokens that a reader has taken, where the source ends well. -/
structure Takes (left right : Tokens) (used : List Token) : Prop where
  tokens : left.tokens = used ++ right.tokens
  ending : left.ending = right.ending

namespace Takes

theorem refl (left : Tokens) : Takes left left [] := ⟨rfl, rfl⟩

theorem trans (h : Takes left mid used) (h' : Takes mid right used') :
    Takes left right (used ++ used') :=
  ⟨by rw [h.tokens, h'.tokens, append_assoc], h.ending.trans h'.ending⟩

theorem length_eq (h : Takes left right used) :
    left.tokens.length = used.length + right.tokens.length := by
  rw [h.tokens, length_append]

theorem first (h : left.first = .ok token) (hne : token.lexeme ≠ .eof) :
    Takes left left.behind [token] := by
  obtain ⟨_ | ⟨_, _⟩, _ | _⟩ := left <;> cases h
  · exact absurd rfl hne
  · exact ⟨rfl, rfl⟩
  · exact ⟨rfl, rfl⟩

end Takes

theorem behind_ending : left.behind.ending = left.ending := rfl

theorem ended_ending : (Tokens.ended why).ending = .error why := rfl

theorem ending_of_first (h : left.first = .error why) : left.ending = .error why := by
  obtain ⟨_ | ⟨_, _⟩, _ | _⟩ := left <;> cases h
  rfl

theorem TakesOne.ended_well {α : Type} {kind : Kind} {accept : Token → Option α} {x : Part α}
    (h : TakesOne kind accept left x right) (hend : right.ending = .ok e) :
    left.ending = .ok e ∧ ∃ a, x = .ok a := by
  cases h with
  | taken => exact ⟨hend, _, rfl⟩
  | refused => cases hend
  | failed hfirst => cases (ending_of_first hfirst).symm.trans hend

theorem mark_eq (h : (if token.kind = .mark m then some token.pos else none) = some pos) :
    token = ⟨.mark m, pos⟩ := by
  obtain ⟨lexeme, place⟩ := token
  cases lexeme <;> simp_all [Token.kind, Lexeme.kind]

theorem Expects.takes (h : Expects (.mark m) left (.ok pos) right) :
    Takes left right [⟨.mark m, pos⟩] := by
  cases h with
  | taken hfirst haccept =>
    cases mark_eq haccept
    exact .first hfirst nofun

def elementTokens (rest : List (Position × List Token × Expr)) : List Token :=
  rest.flatMap fun element => ⟨.mark .comma, element.1⟩ :: element.2.1

def Section.Written : Section → List Token → List Expr → Prop
  | .operand, used, xs => ∀ x ∈ xs, Expression .operand used x
  | .product, used, xs => ∀ x ∈ xs, Expression .product used x
  | .sum, used, xs => ∀ x ∈ xs, Expression .sum used x
  | .factors x, used, xs => x.Whole ∧
    ∀ y ∈ xs, ∀ before, Expression .product before x → Expression .product (before ++ used) y
  | .terms x, used, xs => x.Whole ∧
    ∀ y ∈ xs, ∀ before, Expression .sum before x → Expression .sum (before ++ used) y
  | .elements, used, xs => ∃ rest : List (Position × List Token × Expr),
    xs = rest.map (·.2.2) ∧ used = elementTokens rest ∧
      ∀ element ∈ rest, Expression .sum element.2.1 element.2.2

theorem written_scale (hop : scaleOperator? token.lexeme = some op)
    (hx : Expression .product used x) (hy : Expression .operand used' y) :
    Expression .product (used ++ ([token] ++ used')) (.scale op token.pos x y) := by
  obtain ⟨lexeme, pos⟩ := token
  cases lexeme with
  | mark m =>
    cases m <;> cases hop
    · exact .multiply hx hy
    · exact .divide hx hy
  | _ => cases hop

theorem written_sum {op : SumOperator} (hop : sumOperator? token.lexeme = some op)
    (hx : Expression .sum used x) (hy : Expression .product used' y) :
    Expression .sum (used ++ ([token] ++ used')) (.sum op token.pos x y) := by
  obtain ⟨lexeme, pos⟩ := token
  cases lexeme with
  | mark m =>
    cases m <;> cases hop
    · exact .add hx hy
    · exact .subtract hx hy
  | _ => cases hop

theorem Reads.written (h : Reads part left xs right) (hxs : ∀ x ∈ xs, x.Whole) :
    ∃ used, Takes left right used ∧ part.Written used xs := by
  induction h with
  | var hfirst =>
    exact ⟨_, .first hfirst nofun, forall_mem_singleton.mpr .var⟩
  | number hfirst =>
    exact ⟨_, .first hfirst nofun, forall_mem_singleton.mpr .number⟩
  | paren hfirst _ hclose ih =>
    cases forall_mem_singleton.mp hxs with
    | paren hinner =>
      obtain ⟨used, htakes, hwritten⟩ := ih (forall_mem_singleton.mpr hinner)
      exact ⟨_, ((Takes.first hfirst nofun).trans htakes).trans hclose.takes,
        forall_mem_singleton.mpr (.paren (forall_mem_singleton.mp hwritten))⟩
  | vector hfirst _ _ hclose ihx ihrest =>
    cases forall_mem_singleton.mp hxs with
    | vector hx hrest =>
      obtain ⟨used, htakes, hwritten⟩ := ihx (forall_mem_singleton.mpr hx)
      obtain ⟨_, htakes', rest, rfl, rfl, helements⟩ := ihrest hrest
      exact ⟨_, (((Takes.first hfirst nofun).trans htakes).trans htakes').trans hclose.takes,
        forall_mem_singleton.mpr (.vector (forall_mem_singleton.mp hwritten) helements)⟩
  | refused | failed => cases forall_mem_singleton.mp hxs
  | @factor _ token op _ _ x _ _ hfirst hop _ _ ihr ihy =>
    obtain ⟨used', htakes', hwhole, hwritten'⟩ := ihy hxs
    cases hwhole with
    | scale hx hr =>
      obtain ⟨used, htakes, hwritten⟩ := ihr (forall_mem_singleton.mpr hr)
      refine ⟨_, (Takes.first hfirst (by rintro heof; simp [heof, scaleOperator?] at hop)).trans
        (htakes.trans htakes'), hx, fun y hy before hbefore => ?_⟩
      have hscaled := hwritten' y hy _ (written_scale hop hbefore (hwritten _ (.head _)))
      rwa [append_assoc, append_assoc] at hscaled
  | stopped => cases forall_mem_singleton.mp hxs
  | factored | summed =>
    exact ⟨[], .refl _, forall_mem_singleton.mp hxs, forall_mem_singleton.mpr
      fun before hbefore => (append_nil before).symm ▸ hbefore⟩
  | product _ _ ihx ihy =>
    obtain ⟨used', htakes', hwhole, hwritten'⟩ := ihy hxs
    obtain ⟨used, htakes, hwritten⟩ := ihx (forall_mem_singleton.mpr hwhole)
    exact ⟨_, htakes.trans htakes', fun y hy =>
      hwritten' y hy used (.factor (hwritten _ (.head _)))⟩
  | term hfirst hop _ _ ihr ihy =>
    obtain ⟨used', htakes', hwhole, hwritten'⟩ := ihy hxs
    cases hwhole with
    | sum hx hr =>
      obtain ⟨used, htakes, hwritten⟩ := ihr (forall_mem_singleton.mpr hr)
      refine ⟨_, (Takes.first hfirst (by rintro heof; simp [heof, sumOperator?] at hop)).trans
        (htakes.trans htakes'), hx, fun y hy before hbefore => ?_⟩
      have hsummed := hwritten' y hy _ (written_sum hop hbefore (hwritten _ (.head _)))
      rwa [append_assoc, append_assoc] at hsummed
  | sum _ _ ihx ihy =>
    obtain ⟨used', htakes', hwhole, hwritten'⟩ := ihy hxs
    obtain ⟨used, htakes, hwritten⟩ := ihx (forall_mem_singleton.mpr hwhole)
    exact ⟨_, htakes.trans htakes', fun y hy => hwritten' y hy used (.term (hwritten _ (.head _)))⟩
  | element hfirst _ _ ihx ihrest =>
    obtain ⟨hx, hrest⟩ := forall_mem_cons.mp hxs
    obtain ⟨used, htakes, hwritten⟩ := ihx (forall_mem_singleton.mpr hx)
    obtain ⟨_, htakes', rest, rfl, rfl, helements⟩ := ihrest hrest
    exact ⟨_, (Takes.first hfirst nofun).trans (htakes.trans htakes'), (_, used, _) :: rest, rfl,
      rfl, forall_mem_cons.mpr ⟨hwritten _ (.head _), helements⟩⟩
  | listed => exact ⟨[], .refl _, [], rfl, rfl, nofun⟩

def Unscaled (left : Tokens) : Prop :=
  ∃ token, left.first = .ok token ∧ scaleOperator? token.lexeme = none

def Stops (left : Tokens) : Prop :=
  ∃ token, left.first = .ok token ∧ scaleOperator? token.lexeme = none ∧
    sumOperator? token.lexeme = none

theorem Reads.stops (h : Reads part left xs right) (hxs : ∀ x ∈ xs, x.Whole) :
    match part with
    | .product | .factors _ => Unscaled right
    | .terms _ => Unscaled left → Stops right
    | .sum => Stops right
    | _ => True := by
  induction h with
  | stopped => cases forall_mem_singleton.mp hxs
  | factor _ _ _ _ _ ih => exact ih hxs
  | factored hfirst hop => exact ⟨_, hfirst, hop⟩
  | product _ _ _ ih => exact ih hxs
  | term _ _ hr hy ihr ih =>
    obtain ⟨-, -, hwhole, -⟩ := hy.written hxs
    cases hwhole with
    | sum _ hr => exact fun _ => ih hxs (ihr (forall_mem_singleton.mpr hr))
  | summed h =>
    rintro ⟨token, hfirst, hop⟩
    exact ⟨token, hfirst, hop, h token hfirst⟩
  | sum _ hy ihx ih =>
    obtain ⟨-, -, hwhole, -⟩ := hy.written hxs
    exact ih hxs (ihx (forall_mem_singleton.mpr hwhole))
  | _ => trivial

theorem Reads.ended_well (h : Reads part left xs right) (hend : right.ending = .ok e) :
    left.ending = .ok e := by
  induction h with
  | _ => grind [→ TakesOne.ended_well, → ending_of_first, behind_ending, ended_ending]

theorem Reads.whole (h : Reads part left xs right) (hend : right.ending = .ok e)
    (hpart : match part with | .factors x | .terms x => x.Whole | _ => True) :
    ∀ x ∈ xs, x.Whole := by
  induction h with
  | refused => cases hend
  | failed hfirst | stopped hfirst => cases (ending_of_first hfirst).symm.trans hend
  | _ => grind [Expr.Whole, → TakesOne.ended_well, → Reads.ended_well]

/-- Marks that continue an expression. -/
def operatorKinds : List Kind := [.mark .star, .mark .slash, .mark .plus, .mark .minus]

/-- The next token can be looked at, and is of none of some kinds. -/
def Sees (kinds : List Kind) (n : Nat) (left : Tokens) : Prop :=
  ∃ token, peek n left = (.ok token, left) ∧ token.kind ∉ kinds

theorem expression_whole {n : Nat} (h : expression n left = (x, right)) (hx : x.Whole)
    (hn : left.tokens.length ≤ n) :
    ∃ used, Takes left right used ∧ Expression .sum used x ∧ Sees operatorKinds n right := by
  have hread : ReadsExpression left (expression n left).1 (expression n left).2 :=
    Gives.expression hn
  rw [h] at hread
  have hxs := forall_mem_singleton.mpr hx
  obtain ⟨used, htakes, hwritten⟩ := hread.written hxs
  obtain ⟨token, hfirst, hscale, hsum⟩ := hread.stops hxs
  refine ⟨used, htakes, hwritten x (.head _), token, ?_, ?_⟩
  · rw [← hfirst]
    obtain ⟨_ | ⟨_, _⟩, _ | _⟩ := right <;> rfl
  · obtain ⟨lexeme, pos⟩ := token
    cases lexeme with
    | mark m =>
      cases m <;>
        simp_all [scaleOperator?, sumOperator?, operatorKinds, Token.kind, Lexeme.kind]
    | _ => simp [operatorKinds, Token.kind, Lexeme.kind]

def Begins (used : List Token) (x : Expr) : Level → Prop
  | .operand => ∀ rest e, Reads .operand ⟨used ++ rest, e⟩ [x] ⟨rest, e⟩
  | .product => ∀ rest e {y right}, Reads (.factors x) ⟨rest, e⟩ [y] right →
    Reads .product ⟨used ++ rest, e⟩ [y] right
  | .sum => ∀ rest e {y right}, Unscaled ⟨rest, e⟩ → Reads (.terms x) ⟨rest, e⟩ [y] right →
    Reads .sum ⟨used ++ rest, e⟩ [y] right

namespace Begins

variable {e : Except Diagnostic Position}

theorem whole (h : Begins used x .sum) (hrest : Stops ⟨rest, e⟩) :
    ReadsExpression ⟨used ++ rest, e⟩ x ⟨rest, e⟩ := by
  obtain ⟨token, hfirst, hscale, hsum⟩ := hrest
  refine h rest e ⟨token, hfirst, hscale⟩ (.summed fun token' htoken => ?_)
  cases hfirst.symm.trans htoken
  exact hsum

theorem stops_elements (others : List (Position × List Token × Expr)) (close : Position)
    (rest : List Token) (e : Except Diagnostic Position) :
    Stops ⟨elementTokens others ++ (⟨.mark .rightBrace, close⟩ :: rest), e⟩ := by
  cases others with
  | nil => exact ⟨_, rfl, rfl, rfl⟩
  | cons => exact ⟨_, rfl, rfl, rfl⟩

theorem elements {others : List (Position × List Token × Expr)}
    (h : ∀ element ∈ others, Begins element.2.1 element.2.2 .sum) (close : Position) :
    Reads .elements ⟨elementTokens others ++ (⟨.mark .rightBrace, close⟩ :: rest), e⟩
      (others.map (·.2.2)) ⟨⟨.mark .rightBrace, close⟩ :: rest, e⟩ := by
  induction others with
  | nil => exact .listed nofun
  | cons element others ih =>
    obtain ⟨helement, hothers⟩ := forall_mem_cons.mp h
    refine .element rfl ?_ (ih hothers)
    have hread := helement.whole (stops_elements others close rest e)
    rwa [← append_assoc] at hread

theorem scale (hx : Begins used x .product) (hy : Begins used' y .operand)
    (hop : scaleOperator? token.lexeme = some op) :
    Begins (used ++ ([token] ++ used')) (.scale op token.pos x y) .product := by
  intro rest e z right hz
  have hread := hx (token :: (used' ++ rest)) e (.factor rfl hop (hy rest e) hz)
  rwa [append_assoc]

theorem sum {op : SumOperator} (hx : Begins used x .sum) (hy : Begins used' y .product)
    (hop : sumOperator? token.lexeme = some op) (hscale : scaleOperator? token.lexeme = none) :
    Begins (used ++ ([token] ++ used')) (.sum op token.pos x y) .sum := by
  intro rest e z right hrest hz
  have hproduct := hy rest e (.factored hrest.choose_spec.1 hrest.choose_spec.2)
  have hread := hx (token :: (used' ++ rest)) e ⟨token, rfl, hscale⟩ (.term rfl hop hproduct hz)
  rwa [append_assoc]

end Begins

theorem begins {level : Level} (h : Expression level used x) : Begins used x level := by
  induction h with
  | var => exact fun rest e => .var rfl
  | number => exact fun rest e => .number rfl
  | @paren pos close tokens inner _ ih =>
    intro rest e
    rw [append_assoc, append_assoc]
    exact .paren rfl (ih.whole ⟨_, rfl, rfl, rfl⟩) (.taken rfl rfl)
  | @vector pos close tokens first others _ _ ih ihothers =>
    intro rest e
    rw [append_assoc, append_assoc, append_assoc]
    exact .vector rfl (ih.whole (Begins.stops_elements others close rest e))
      (Begins.elements ihothers close) (.taken rfl rfl)
  | factor _ ih => exact fun rest e _ _ hy => .product (ih rest e) hy
  | multiply _ _ ihx ihy => exact ihx.scale ihy rfl
  | divide _ _ ihx ihy => exact ihx.scale ihy rfl
  | term _ ih =>
    exact fun rest e _ _ hrest hy =>
      .sum (ih rest e (.factored hrest.choose_spec.1 hrest.choose_spec.2)) hy
  | add _ _ ihx ihy => exact ihx.sum ihy rfl rfl
  | subtract _ _ ihx ihy => exact ihx.sum ihy rfl rfl

end Reading

theorem Grammar.Expression.unique {used : List Token} (hx : Grammar.Expression .sum used x)
    (hy : Grammar.Expression .sum used y) : x = y := by
  have hread : ∀ {z}, Grammar.Expression .sum used z →
      Reading.ReadsExpression ⟨used ++ [], .ok ⟨0, 0⟩⟩ z ⟨[], .ok ⟨0, 0⟩⟩ :=
    fun h => (Reading.begins h).whole ⟨_, rfl, rfl, rfl⟩
  cases ((hread hy).unique (hread hx)).1
  rfl

end Shading
