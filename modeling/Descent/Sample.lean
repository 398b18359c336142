import Descent.Grammar.Draft

/-!
# Sample grammars

Small grammars that show what the library is for. Two of them have a choice that one token of
lookahead cannot settle, since both branches start with the same dotted name.
-/

namespace Descent.Sample

/-- A token, with its occurrence index where it is not the first of its kind in the rule. -/
def token (kind : Terminal) (pin : Option Nat) : Expr := .leaf (.terminal kind) pin

/-- A reference to a rule. -/
def rule (name : String) : Expr := .leaf (.rule name) none

/-- Items in a row. -/
def row (items : List Expr) : Expr := .group .sequence items

/-- One item, and further ones each after a separator that is part of the written body. -/
def separated (item separator : Terminal) : Expr :=
  row [token item none, .loop .zeroOrMore (row [token separator none, token item (some 2)]) none]

/-- An element with a number after an equals sign or after a default mark. -/
def element : Draft where
  name := "element"
  terminals := ["Number", "Element", "Default", "Dot", "Colon", "Equals", "SemiColon", "Ident"]
  rules :=
    let withMark (mark : Terminal) := row [token 1 none, token 7 none, token 4 none,
      rule "qualifiedName", token mark none, token 0 none, token 6 none]
    [{ name := "statement"
       body := .group .alternation [rule "withEqualsStatement", rule "withDefaultStatement"] },
     { name := "withEqualsStatement", body := withMark 5 },
     { name := "withDefaultStatement", body := withMark 2 },
     { name := "qualifiedName", body := separated 7 3, resync := false }]

/-- Statements that are calls, whose arguments may be resynced or not. -/
def callsWith (name : String) (resyncArguments : Bool) : Draft where
  name := name
  terminals := ["Ident", "Comma", "Semi", "LParen", "RParen"]
  rules :=
    [{ name := "stmts", body := .loop .oneOrMore (rule "stmt") none },
     { name := "stmt", body := row [rule "call", token 2 none] },
     { name := "call", body := row [token 0 none, token 3 none, rule "args", token 4 none] },
     { name := "args", body := separated 0 1, resync := resyncArguments }]

/-- Statements that are calls. -/
def calls : Draft := callsWith "calls" true

/-- Statements that are calls whose arguments are never resynced. -/
def strictCalls : Draft := callsWith "strict_calls" false

/-- A dotted path before an equals sign or before a default mark. -/
def paths : Draft where
  name := "paths"
  terminals := ["Ident", "Dot", "Equals", "Default", "Semi"]
  rules :=
    [{ name := "stmt", body := .group .alternation [rule "assign", rule "defaulted"] },
     { name := "assign", body := row [rule "path", token 2 none] },
     { name := "defaulted", body := row [rule "path", token 3 none] },
     { name := "path", body := separated 0 1 }]

/-- A grammar that refers to a rule it does not declare. -/
def incomplete : Draft where
  name := "incomplete"
  terminals := ["X"]
  rules := [{ name := "top", body := row [token 0 none, rule "later"] }]

/-- The samples, by the names of their grammars. -/
def all : List Draft := [element, calls, strictCalls, paths, incomplete]

end Descent.Sample
