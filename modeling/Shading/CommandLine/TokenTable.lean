import Shading.Number.Shortest
import Shading.Text.Quoted
import Shading.Token.Lexer

/-!
Tokens as a table: their places, kinds and values in aligned columns.
-/

namespace Shading.CommandLine

open Text

structure TokenRow where
  place : Bytes
  kind : Bytes
  value : Bytes
  deriving DecidableEq, Repr

def TokenRow.ofToken (t : Token) : TokenRow where
  place := signed t.pos.line ++ utf8 ":" ++ signed t.pos.column
  kind := utf8 t.kind.name
  value := match t.lexeme with
    | .sym text => text
    | .string text => quote text
    | .integer n => signed n.toInt
    | .number bits => Number.Binary32.render bits
    | _ => []

def columnWidth (cells : List Bytes) : Nat := (cells.map List.length).foldl max 0 + 2

def tokenTable (tokens : List Token) : Bytes :=
  let rows := tokens.map TokenRow.ofToken
  let first := columnWidth (rows.map (·.place))
  let second := columnWidth (rows.map (·.kind))
  rows.flatMap fun r => padRight first r.place ++ padRight second r.kind ++ r.value ++ utf8 "\n"

end Shading.CommandLine
