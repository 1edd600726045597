import TagCatalog.Catalog.Upkeep
import TagCatalog.Record.Content
import TagCatalog.Record.Operation

/-! Replaying a file of events, one JSON object to a line, into a fresh ledger and catalog. -/

namespace TagCatalog

inductive Event
  | upsert (content : Content)
  | remove (address : Address)
  | op (operation : Operation)
  deriving DecidableEq

namespace Event

open Json

def addressOfDraft? (d : Draft) : Option Address := do
  let fs ← d.fields? ["author", "permlink"]
  return ⟨← fs.required? "author" Draft.string?, ← fs.required? "permlink" Draft.string?⟩

/-- An event is an object of one member, which holds an object or an array. An operation stands one
level deep in it. -/
def ofDraft? : Draft → Option Event
  | .obj [(some "upsert", d)] => (Content.ofDraft? d).map .upsert
  | .obj [(some "remove", d)] => (addressOfDraft? d).map .remove
  | .obj [(some "op", d)] => ((d.resolve? (maxLevels - 1)).bind Operation.ofJson?).map .op
  | _ => none

def read? (line : String) : Option Event := (Draft.read? line).bind ofDraft?

end Event

structure Replay where
  ledger : Ledger := .empty
  catalog : Catalog := .empty
  events : Nat := 0
  operations : Nat := 0
  report : Report := {}

namespace Replay

def empty : Replay := {}

def onLedger (m : Update Ledger α) : Update Replay α :=
  Update.within Replay.ledger (fun r ledger => { r with ledger }) m

def onCatalog (m : Update Catalog α) : Update Replay α :=
  Update.within Replay.catalog (fun r catalog => { r with catalog }) m

def step (s : Settings) (event : Event) : Update Replay Unit := do
  modify fun r => { r with events := r.events + 1 }
  match event with
  | .upsert content => let _ ← onLedger (Ledger.upsert content)
  | .remove address => let _ ← onLedger (Ledger.remove address)
  | .op operation =>
    let report ← onCatalog (Catalog.apply s (← get).ledger.source operation)
    modify fun r =>
      { r with operations := r.operations + 1, report := r.report.merge report }

/-- Blank lines and lines that start with `#` say nothing. White space around an event, a carriage
return at its end included, is no part of it. -/
def line (s : Settings) (text : String) : Update Replay Unit :=
  match Text.trim text.toList with
  | [] => return ()
  | '#' :: _ => return ()
  | cs =>
    match Event.read? (String.ofList cs) with
    | some event => step s event
    | none => Update.fail .json

/-- Put a byte before lines. A newline ends a line of its own, so that the last one of a file
starts no further line. -/
def addByte (b : UInt8) (lines : List (List UInt8)) : List (List UInt8) :=
  if b = 10 then [] :: lines
  else match lines with
    | [] => [[b]]
    | l :: ls => (b :: l) :: ls

def lines (bytes : ByteArray) : List (List UInt8) :=
  bytes.toList.foldr addByte []

def runLines (s : Settings) : List (List UInt8) → Update Replay Unit
  | [] => return ()
  | bytes :: rest =>
    match String.fromUTF8? bytes.toByteArray with
    | none => Update.fail .io
    | some text => do
      line s text
      runLines s rest

def run (s : Settings) (bytes : ByteArray) : Except Halt Replay :=
  match runLines s (lines bytes) .empty with
  | .ok _ r => .ok r
  | .error h _ => .error h

end Replay

end TagCatalog
