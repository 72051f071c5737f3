import Shading.Proofs.Lexing
import Shading.Proofs.Renaming.Basic

/-!
Tokens under other names. The messages of lexical errors tell the errors apart,
so what is known of the tokens of two sources makes them the same up to names
and places.
-/

namespace Shading

open List Tokens

variable {cause : Cause}

namespace Cause

@[simp] theorem length_unexpectedByte (b : UInt8) : (unexpectedByte b).wording.length = 20 := by
  rw [wording, length_append]
  rfl

@[simp] theorem length_unexpectedCharacter (b : UInt8) :
    (unexpectedCharacter b).wording.length = 24 := by
  rw [wording, length_append, length_append]
  rfl

@[simp] theorem length_integerTooLarge : integerTooLarge.wording.length = 28 := rfl

@[simp] theorem length_unterminatedString : unterminatedString.wording.length = 27 := rfl

theorem length_wording_le (h : cause.isLexical = true) :
    cause.wording.length ≤ maxMessageLength := by
  cases cause with
  | unexpectedByte | unexpectedCharacter | integerTooLarge | unterminatedString =>
    simp [maxMessageLength]
  | _ => cases h

theorem eq_of_message {cause' : Cause} (h : cause.isLexical = true) (h' : cause'.isLexical = true)
    (heq : truncateMessage cause.wording = truncateMessage cause'.wording) : cause = cause' := by
  rw [truncateMessage, if_pos (length_wording_le h), truncateMessage,
    if_pos (length_wording_le h')] at heq
  -- messages about different things have different lengths
  have hlength : cause.wording.length = cause'.wording.length := congrArg _ heq
  cases cause with
  | unexpectedByte b =>
    cases cause' with
    | unexpectedByte b' =>
      rw [wording, wording] at heq
      rw [Text.hexDigits_inj (by decide) (append_cancel_left heq)]
    | unexpectedCharacter | integerTooLarge | unterminatedString =>
      simp at hlength
    | _ => cases h'
  | unexpectedCharacter b =>
    cases cause' with
    | unexpectedCharacter b' =>
      rw [wording, wording] at heq
      have hb := append_cancel_left (append_cancel_right heq)
      rw [singleton_inj.mp hb]
    | unexpectedByte | integerTooLarge | unterminatedString =>
      simp at hlength
    | _ => cases h'
  | integerTooLarge =>
    cases cause' with
    | integerTooLarge => rfl
    | unexpectedByte | unexpectedCharacter | unterminatedString =>
      simp at hlength
    | _ => cases h'
  | unterminatedString =>
    cases cause' with
    | unterminatedString => rfl
    | unexpectedByte | unexpectedCharacter | integerTooLarge =>
      simp at hlength
    | _ => cases h'
  | _ => cases h

end Cause

namespace Tokens

/-- The lexemes of a source, that of its end included. -/
def lexemes (t : Tokens) : List Lexeme := t.toList.map (·.lexeme)

/-- The message of the lexical error that ends the tokens, if one does. -/
def failure? (t : Tokens) : Option Bytes :=
  match t.ending with
  | .ok _ => none
  | .error why => some why.message

theorem ending_of_failure? {t : Tokens} (h : t.failure? = none) : ∃ last, t.ending = .ok last := by
  unfold failure? at h
  cases hending : t.ending with
  | ok last => exact ⟨last, rfl⟩
  | error why =>
    rw [hending] at h
    cases h

theorem names_lexemes (source : Bytes) {text : Bytes}
    (h : .sym text ∈ (ofSource source).lexemes) : Lexeme.isIdentifier text = true := by
  obtain ⟨token, htoken, htext⟩ := mem_map.mp h
  have hnames := names_ofSource source
  unfold toList at htoken
  split at htoken
  · rcases mem_append.mp htoken with hread | hend
    · exact hnames token hread text htext
    · rw [mem_singleton.mp hend] at htext
      cases htext
  · exact hnames token htoken text htext

end Tokens

namespace Renaming

open Position (nowhere)

variable (ρ : Renaming)

def ofIdentifiers (rename : Bytes → Bytes)
    (hword : ∀ w, Lexeme.isIdentifier w = true → Lexeme.isIdentifier (rename w) = true)
    (hinjective : ∀ v w, Lexeme.isIdentifier v = true → Lexeme.isIdentifier w = true →
      rename v = rename w → v = w)
    (hreserved : ∀ w ∈ reservedWords, rename w = w) : Renaming where
  word w := if Lexeme.isIdentifier w then rename w else w
  injective := by
    intro v w heq
    by_cases hv : Lexeme.isIdentifier v = true
    · by_cases hw : Lexeme.isIdentifier w = true
      · rw [if_pos hv, if_pos hw] at heq
        exact hinjective v w hv hw heq
      · rw [if_pos hv, if_neg hw] at heq
        exact absurd (heq ▸ hword v hv) hw
    · by_cases hw : Lexeme.isIdentifier w = true
      · rw [if_neg hv, if_pos hw] at heq
        exact absurd (heq ▸ hword w hw) hv
      · rwa [if_neg hv, if_neg hw] at heq
  reserved := by
    intro w hw
    rw [hreserved w hw, ite_self]
  nameless := rfl

theorem lexemes_ofIdentifiers (source : Bytes) {rename : Bytes → Bytes}
    (hword : ∀ w, Lexeme.isIdentifier w = true → Lexeme.isIdentifier (rename w) = true)
    (hinjective : ∀ v w, Lexeme.isIdentifier v = true → Lexeme.isIdentifier w = true →
      rename v = rename w → v = w)
    (hreserved : ∀ w ∈ reservedWords, rename w = w) :
    (ofSource source).lexemes.map
        (Lexeme.mapName (ofIdentifiers rename hword hinjective hreserved).word) =
      (ofSource source).lexemes.map (Lexeme.mapName rename) := by
  apply map_congr_left
  intro lexeme hlexeme
  cases lexeme with
  | sym text =>
    have hname : Lexeme.isIdentifier text = true := names_lexemes source hlexeme
    exact congrArg Lexeme.sym (if_pos hname)
  | _ => rfl

theorem cause_of_isLexical (h : cause.isLexical = true) : ρ.cause cause = cause := by
  cases cause with
  | unexpectedByte | unexpectedCharacter | integerTooLarge | unterminatedString => rfl
  | _ => cases h

theorem mapName_keep : Lexeme.mapName keep.word = id := by
  funext lexeme
  cases lexeme <;> rfl

theorem map_token (tokens : List Token) : tokens.map ρ.token =
    ((tokens.map (·.lexeme)).map (Lexeme.mapName ρ.word)).map (⟨·, nowhere⟩) := by
  rw [map_map, map_map]
  rfl

theorem map_token_keep {tokens tokens' : List Token}
    (h : tokens'.map (·.lexeme) = (tokens.map (·.lexeme)).map (Lexeme.mapName ρ.word)) :
    tokens.map ρ.token = tokens'.map keep.token := by
  rw [map_token, map_token, mapName_keep, map_id, h]

theorem tokens_ofSource {source source' : Bytes}
    (hlexemes : (ofSource source').lexemes =
      (ofSource source).lexemes.map (Lexeme.mapName ρ.word))
    (hfailure : (ofSource source').failure? = (ofSource source).failure?) :
    ρ.tokens (.ofSource source) = keep.tokens (.ofSource source') := by
  have hlexical := (ofSource_stand source).2
  have hlexical' := (ofSource_stand source').2
  generalize ofSource source = t at *
  generalize ofSource source' = t' at *
  obtain ⟨tokens, ending⟩ := t
  obtain ⟨tokens', ending'⟩ := t'
  rw [lexemes, lexemes] at hlexemes
  cases ending with
  | ok last =>
    obtain ⟨last', rfl⟩ := ending_of_failure? hfailure
    simp only [toList, map_append] at hlexemes
    have hsame : tokens.map ρ.token = tokens'.map keep.token :=
      ρ.map_token_keep (append_cancel_right hlexemes)
    rw [Renaming.tokens, hsame]
    rfl
  | error why =>
    cases ending' with
    | ok last' => cases hfailure
    | error why' =>
      have hcause : why'.cause = why.cause := Cause.eq_of_message (hlexical' _ rfl)
        (hlexical _ rfl) (Option.some.inj hfailure)
      have hdiagnostic : ρ.diagnostic why = keep.diagnostic why' := by
        rw [diagnostic, diagnostic, ρ.cause_of_isLexical (hlexical _ rfl),
          keep.cause_of_isLexical (hlexical' _ rfl), hcause]
      have hsame : tokens.map ρ.token = tokens'.map keep.token := ρ.map_token_keep hlexemes
      simp only [Renaming.tokens, hsame, place, part, hdiagnostic]

end Renaming

end Shading
