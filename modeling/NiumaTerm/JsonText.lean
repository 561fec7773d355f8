import NiumaTerm.Lib.Json

/-!
# Reading texts from provider records

The small readers that the adapters share: the first field that holds a text, a one-line preview,
the readable text of a message's content.
-/

namespace NiumaTerm

open Rust

/-- The first of the fields that is not blank, trimmed. -/
def textField (value : Json) (keys : List String) : Option Str :=
  keys.findSome? fun key => ((value.get key).asStr.map trim).filter (!·.isEmpty)

/-- `str::split_whitespace`. -/
def splitWhitespace (text : Str) : List Str :=
  (text.splitOnP isWhitespace).filter (!·.isEmpty)

/-- One line of at most `maxChars` characters. -/
def collapse (text : Str) (maxChars : ℕ) : Str :=
  let spaced := text.map fun ch => if isControl ch then ' ' else ch
  (List.intercalate [' '] (splitWhitespace spaced)).take maxChars

def MAX_PREVIEW_CHARS : ℕ := 160

/-- A preview of one line; none of a blank text. -/
def condense (text : Str) : Option Str :=
  let text := collapse text (2 ^ 64 - 1)
  if text.isEmpty then none
  else if MAX_PREVIEW_CHARS < text.length then some (text.take MAX_PREVIEW_CHARS ++ ['…'])
  else some text

/-- The text of a `content`, which is a string or an array of blocks. -/
def blockText (content : Json) (textBlocksOnly : Bool) : Option Str :=
  let text := match content with
    | .string text => some text
    | .array blocks =>
      let shown := blocks.filter fun block : Json =>
        !textBlocksOnly || (block.get "type").isText "text"
      some (List.intercalate ['\n'] (shown.filterMap fun block : Json => (block.get "text").asStr))
    | _ => none
  text.filter fun text => !(trim text).isEmpty

example : condense " a\n\tb ".toList = some "a b".toList := by decide +kernel

end NiumaTerm
