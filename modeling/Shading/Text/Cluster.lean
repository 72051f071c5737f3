import Shading.Text.ClusterTables
import Shading.Text.Ranges
import Shading.Text.Utf8

/-!
Extended grapheme clusters: the pieces of a text that a reader sees as one
character. The boundary rules are those of the Unicode text segmentation
standard; malformed bytes have no class, and a character that the end of the
text cuts short stays with the cluster before it.
-/

namespace Shading.Text

inductive ClusterClass where
  | other
  | carriageReturn
  | lineFeed
  | control
  | extend
  | joiner
  | spacingMark
  | prepend
  | regional
  | leadingJamo
  | vowelJamo
  | trailingJamo
  | openSyllable
  | closedSyllable
  | pictograph
  deriving DecidableEq, Repr

def ClusterClass.ofCode (code : Nat) : ClusterClass :=
  if code = 0x0D then .carriageReturn
  else if code = 0x0A then .lineFeed
  else if 0x20 ≤ code && code < 0x7F then .other
  else if code = 0x200D then .joiner
  else if 0xAC00 ≤ code && code ≤ 0xD7A3 then
    if (code - 0xAC00) % 28 = 0 then .openSyllable else .closedSyllable
  else if inRanges [(0x1100, 0x115F), (0xA960, 0xA97C)] code then .leadingJamo
  else if inRanges [(0x1160, 0x11A7), (0xD7B0, 0xD7C6)] code then .vowelJamo
  else if inRanges [(0x11A8, 0x11FF), (0xD7CB, 0xD7FB)] code then .trailingJamo
  else if 0x1F1E6 ≤ code && code ≤ 0x1F1FF then .regional
  else if inStretches controlStretches code then .control
  else if inStretches extendStretches code then .extend
  else if inStretches spacingMarkStretches code then .spacingMark
  else if inStretches prependStretches code then .prepend
  else if inStretches pictographStretches code then .pictograph
  else .other

def clusterUnit? (text : Bytes) : Option (ClusterClass × Nat) :=
  let whole (size : Nat) : ClusterClass × Nat :=
    match character? text with
    | some (c, _) => (.ofCode c.toNat, size)
    | none => (.other, size)
  match text with
  | [] => none
  | a :: rest =>
    if a < 0x80 then some (whole 1)
    else if a < 0xC2 then some (.other, 1)
    else if a < 0xE0 then
      match rest with
      | b :: _ => some (if isContinuation b then whole 2 else (.other, 1))
      | _ => none
    else if a < 0xF0 then
      match rest with
      | b :: c :: _ =>
        some (if !isContinuation b then (.other, 1)
          else if !isContinuation c then (.other, 2)
          else whole 3)
      | _ => none
    else if a < 0xF8 then
      match rest with
      | b :: c :: d :: _ =>
        some (if !isContinuation b then (.other, 1)
          else if !isContinuation c then (.other, 2)
          else if !isContinuation d then (.other, 3)
          else whole 4)
      | _ => none
    else some (.other, 1)

structure ClusterState where
  last : ClusterClass
  pictureOpen : Bool
  pictureJoined : Bool
  paired : Bool
  deriving DecidableEq, Repr

def ClusterState.first (c : ClusterClass) : ClusterState :=
  ⟨c, c = .pictograph, false, false⟩

def ClusterState.next (s : ClusterState) (c : ClusterClass) : ClusterState where
  last := c
  pictureOpen := c = .pictograph || (c = .extend && s.pictureOpen)
  pictureJoined := c = .joiner && s.pictureOpen
  paired := c = .regional && s.last = .regional && !s.paired

def ClusterClass.isControl (c : ClusterClass) : Bool :=
  c = .control || c = .carriageReturn || c = .lineFeed

def ClusterState.joins (s : ClusterState) (c : ClusterClass) : Bool :=
  if s.last = .carriageReturn && c = .lineFeed then true
  else if s.last.isControl || c.isControl then false
  else
    match s.last, c with
    | .leadingJamo, .leadingJamo | .leadingJamo, .vowelJamo | .leadingJamo, .openSyllable
    | .leadingJamo, .closedSyllable => true
    | .openSyllable, .vowelJamo | .openSyllable, .trailingJamo | .vowelJamo, .vowelJamo
    | .vowelJamo, .trailingJamo => true
    | .closedSyllable, .trailingJamo | .trailingJamo, .trailingJamo => true
    | _, .extend | _, .joiner | _, .spacingMark => true
    | .prepend, _ => true
    | _, .pictograph => s.pictureJoined
    | .regional, .regional => !s.paired
    | _, _ => false

def clustersFrom (found : List Bytes) (state : ClusterState) : Nat → Bytes → Bytes → List Bytes
  | _, opened, [] => (if opened = [] then found else opened.reverse :: found).reverse
  | skip + 1, opened, b :: rest => clustersFrom found state skip (b :: opened) rest
  | 0, opened, b :: rest =>
    match clusterUnit? (b :: rest) with
    | none => ((opened.reverse ++ b :: rest) :: found).reverse
    | some (c, size) =>
      if opened = [] then clustersFrom found (.first c) (size - 1) [b] rest
      else if state.joins c then clustersFrom found (state.next c) (size - 1) (b :: opened) rest
      else clustersFrom (opened.reverse :: found) (.first c) (size - 1) [b] rest

def clusters (text : Bytes) : List Bytes := clustersFrom [] (.first .other) 0 [] text

end Shading.Text
