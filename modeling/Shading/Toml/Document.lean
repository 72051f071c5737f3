import Shading.Toml.Reader

/-!
TOML documents: the tables that the lines of a document build. A table that a
longer key opened on the way to another may still be opened by name, once; keys
with dots may add to any table; a list may be given anew.
-/

namespace Shading.Toml

inductive Value where
  | text (value : Bytes)
  | integer (value : Int64)
  | boolean (value : Bool)
  | float (spelling : Bytes)
  | moment (spelling : Bytes)
  | array (items : List Value)
  | table (entries : List (Bytes × Value))
  | rows (rows : List (List (Bytes × Value)))

abbrev Table := List (Bytes × Value)

namespace Table

def get? (t : Table) (name : Bytes) : Option Value := (t.find? (·.1 = name)).map (·.2)

def set (t : Table) (name : Bytes) (value : Value) : Table :=
  if t.any (·.1 = name) then t.map fun e => if e.1 = name then (name, value) else e
  else t ++ [(name, value)]

def at? (t : Table) : Key → Option Table
  | [] => some t
  | name :: rest =>
    match get? t name with
    | some (.table inner) => at? inner rest
    | some (.rows rows) => rows.getLast?.bind fun row => at? row rest
    | _ => none

def modifyAt? (change : Table → Table) (t : Table) : Key → Option Table
  | [] => some (change t)
  | name :: rest =>
    match get? t name with
    | some (.table inner) =>
      (modifyAt? change inner rest).map fun inner => set t name (.table inner)
    | some (.rows rows) =>
      (rows.getLast?.bind fun row => modifyAt? change row rest).map fun row =>
        set t name (.rows (rows.dropLast ++ [row]))
    | _ => none

def insert? (t : Table) (value : Value) : Key → Option Table
  | [] => none
  | [name] => some (set t name value)
  | name :: rest =>
    match get? t name with
    | none => (insert? [] value rest).map fun inner => set t name (.table inner)
    | some (.table inner) => (insert? inner value rest).map fun inner => set t name (.table inner)
    | some _ => none

end Table

structure Document where
  root : Table := []
  keys : List Key := []
  unnamed : List Key := []
  arrays : List Key := []

namespace Document

def isDefined (d : Document) (key : Key) : Bool :=
  let rec within (t : Table) : Key → Bool
    | [] => false
    | [name] => (t.get? name).isSome
    | name :: rest =>
      match t.get? name with
      | some (.table inner) => within inner rest
      | _ => false
  within d.root key

abbrev Build := StateT Document Option

namespace Build

def find? (context : Key) (name : Bytes) : Build (Option Value) := do
  match (← get).root.at? context with
  | some table => pure (table.get? name)
  | none => failure

def put (context : Key) (name : Bytes) (value : Value) : Build Unit := do
  let d ← get
  match d.root.modifyAt? (·.set name value) context with
  | some root => set { d with root }
  | none => failure

def markUnnamed (key : Key) : Build Unit :=
  modify fun d => { d with unnamed := key :: d.unnamed.filter (· ≠ key) }

def markNamed (key : Key) : Build Unit :=
  modify fun d => { d with unnamed := d.unnamed.filter (· ≠ key) }

def noteKind (context : Key) (name : Bytes) (isArray : Bool) : Build Unit :=
  let key := if name = [] && context ≠ [] then context else context ++ [name]
  modify fun d =>
    let others := d.arrays.filter (· ≠ key)
    { d with arrays := if isArray then key :: others else others }

def noteKey (key : Key) : Build Unit := modify fun d => { d with keys := d.keys ++ [key] }

def define (context : Key) (name : Bytes) (value : Value) : Build Unit := do
  let key := context ++ [name]
  match ← find? context name with
  | none => put context name value
  | some _ => do
    let d ← get
    if d.arrays.contains key then do
      markNamed key
      put context name value
    else if d.unnamed.contains key then markNamed key
    else failure

def openWay (done : Key) : Key → Build Unit
  | [] => pure ()
  | name :: rest => do
    match ← find? done name with
    | none => do
      markUnnamed (done ++ [name])
      put done name (.table [])
    | some (.table _) | some (.rows _) => pure ()
    | some _ => failure
    openWay (done ++ [name]) rest

def openTable (key : Key) : Build Unit := do
  openWay [] key.dropLast
  define key.dropLast (key.getLastD []) (.table [])

def openRow (key : Key) : Build Unit := do
  openWay [] key.dropLast
  match ← find? key.dropLast (key.getLastD []) with
  | none => put key.dropLast (key.getLastD []) (.rows [[]])
  | some (.rows rows) => put key.dropLast (key.getLastD []) (.rows (rows ++ [[]]))
  | some _ => failure

def openDotted (context : Key) : Key → Build Key
  | [] => pure context
  | part :: rest => do
    markUnnamed (context ++ [part])
    openTable (context ++ [part])
    openDotted (context ++ [part]) rest

def isArray : Literal → Bool
  | .array _ => true
  | _ => false

mutual

def value (context : Key) (name : Bytes) (inArray : Bool) : Literal → Build Value
  | .text v => pure (.text v)
  | .integer v => pure (.integer v)
  | .boolean v => pure (.boolean v)
  | .float s => pure (.float s)
  | .moment s => pure (.moment s)
  | .array items => do
    noteKind context name true
    .array <$> values context name items
  | .inline pairs => do
    let key := context ++ [name]
    markUnnamed key
    if inArray then openRow key else openTable key
    .table <$> inlinePairs key [] pairs

def values (context : Key) (name : Bytes) : List Literal → Build (List Value)
  | [] => pure []
  | item :: rest => do
    let v ← value context name true item
    pure (v :: (← values context name rest))

def inlinePairs (context : Key) (entries : Table) : List (Key × Literal) → Build Table
  | [] => pure entries
  | (key, literal) :: rest => do
    let inner ← openDotted context key.dropLast
    let name := key.getLastD []
    noteKey (inner ++ [name])
    let v ← value inner name false literal
    define inner name v
    noteKind inner name (isArray literal)
    match entries.insert? v key with
    | some entries => inlinePairs context entries rest
    | none => failure

end

def line (context : Key) : Line → Build Key
  | .table key => do
    openTable key
    noteKind key [] false
    noteKey key
    pure key
  | .row key => do
    openRow key
    noteKind key [] false
    noteKey key
    pure key
  | .pair key literal => do
    let inner ← openDotted context key.dropLast
    let name := key.getLastD []
    noteKey (inner ++ [name])
    let v ← value inner name false literal
    define inner name v
    noteKind inner name (isArray literal)
    pure context

end Build

def ofLines? (lines : List Line) : Option Document :=
  ((lines.foldlM Build.line []).run {}).map (·.2)

def ofText? (text : Bytes) : Option Document := (lines? text).bind ofLines?

end Document

end Shading.Toml
