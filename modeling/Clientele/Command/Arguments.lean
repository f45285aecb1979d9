import Clientele.Command.Basic

/-!
Reading a command from the arguments of the program. The first argument names the command, and the
others are options with their values, as one argument with an equals sign between them or as two.
The first argument that does not fit is reported; a value is checked only when the next option
comes, or at the end.
-/
set_option autoImplicit false

namespace Clientele.Command

inductive Refusal where
  | helpWanted
  | versionWanted
  | noCommand
  | unknownCommand
  | unknownArgument
  | noValue
  | unneededValue
  | badValue
  | repeatedOption
  | missingOption
  deriving DecidableEq, Repr

inductive Argument where
  | word (s : String)
  | long (name : List Char) (value : Option String)
  | short (letters : List Char)
  | separator
  deriving DecidableEq

def cutAtEquals (cs : List Char) : List Char × Option String :=
  match cs.dropWhile (· ≠ '=') with
  | [] => (cs, none)
  | _ :: value => (cs.takeWhile (· ≠ '='), some (.ofList value))

def Argument.ofText (s : String) : Argument :=
  match s.toList with
  | ['-', '-'] => .separator
  | '-' :: '-' :: cs => .long (cutAtEquals cs).1 (cutAtEquals cs).2
  | '-' :: c :: cs => .short (c :: cs)
  | _ => .word s

/-- Whether a group of letters begins with the one that asks for help. -/
def asksForHelp (letters : List Char) : Bool := letters.head? == some 'h'

def helpName : List Char := ['h', 'e', 'l', 'p']

def versionName : List Char := ['v', 'e', 'r', 's', 'i', 'o', 'n']

inductive Verb where
  | query | compile | get | create | update | delete | audit
  deriving DecidableEq, Repr

namespace Verb

def name : Verb → String
  | query => "query"
  | compile => "compile"
  | get => "get"
  | create => "create"
  | update => "update"
  | delete => "delete"
  | audit => "audit"

def all : List Verb := [query, compile, get, create, update, delete, audit]

def ofName? (s : String) : Option Verb := all.find? (·.name == s)

end Verb

inductive Flag where
  | config | entity | id | user | limit
  deriving DecidableEq, Repr

namespace Flag

def name : Flag → List Char
  | config => ['c', 'o', 'n', 'f', 'i', 'g']
  | entity => ['e', 'n', 't', 'i', 't', 'y']
  | id => ['i', 'd']
  | user => ['u', 's', 'e', 'r']
  | limit => ['l', 'i', 'm', 'i', 't']

end Flag

def Verb.flags : Verb → List Flag
  | query | compile => [.config, .entity]
  | get | delete => [.config, .entity, .id]
  | create => [.config, .entity, .user]
  | update => [.config, .entity, .id, .user]
  | audit => [.config, .entity, .user, .limit]

def Verb.flag? (v : Verb) (name : List Char) : Option Flag := v.flags.find? (·.name == name)

structure Given where
  config : Option String
  entity : Option String
  id : Option Identifier
  user : Option Identifier
  limit : Option Nat

namespace Given

def nothing : Given := ⟨none, none, none, none, none⟩

def has (g : Given) : Flag → Bool
  | .config => g.config.isSome
  | .entity => g.entity.isSome
  | .id => g.id.isSome
  | .user => g.user.isSome
  | .limit => g.limit.isSome

end Given

/-- Decimal digits, which a plus may precede, of a number below 2^64. -/
def count? (s : String) : Option Nat :=
  let ds := match s.toList with
    | '+' :: ds => ds
    | ds => ds
  if ds.isEmpty || !ds.all Char.isDigit then none
  else
    let n := ds.foldl (fun n c => 10 * n + (c.toNat - '0'.toNat)) 0
    if n < 0x10000000000000000 then some n else none

def Given.set (g : Given) (f : Flag) (value : String) : Except Refusal Given :=
  match f with
  | .config => if value = "" then .error .noValue else .ok { g with config := some value }
  | .entity => .ok { g with entity := some value }
  | .id => (Identifier.ofText? value).elim (.error .badValue) fun i => .ok { g with id := some i }
  | .user => (Identifier.ofText? value).elim (.error .badValue) fun i => .ok { g with user := some i }
  | .limit => (count? value).elim (.error .badValue) fun n => .ok { g with limit := some n }

def Given.take (g : Given) (f : Flag) (value : String) : Except Refusal Given :=
  if g.has f then .error .repeatedOption else g.set f value

/-- The last option, while its value may still come or has not been checked yet. -/
inductive Pending where
  | nothing
  | awaiting (f : Flag)
  | collected (f : Flag) (value : String)

def Pending.settle (g : Given) : Pending → Except Refusal Given
  | nothing => .ok g
  | awaiting _ => .error .noValue
  | collected f value => g.take f value

def readOptions (v : Verb) (g : Given) (p : Pending) : List Argument → Except Refusal Given
  | [] => p.settle g
  | .separator :: [] => p.settle g
  | .separator :: _ :: _ => .error .unknownArgument
  | .short letters :: _ =>
    if asksForHelp letters then (p.settle g).bind fun _ => .error .helpWanted
    else .error .unknownArgument
  | .word s :: rest =>
    match p with
    | .awaiting f => readOptions v g (.collected f s) rest
    | _ => .error .unknownArgument
  | .long name value :: rest =>
    if name = helpName then
      match value with
      | none => (p.settle g).bind fun _ => .error .helpWanted
      | some _ => .error .unneededValue
    else
      match v.flag? name, p.settle g with
      | none, _ => .error .unknownArgument
      | some _, .error e => .error e
      | some f, .ok g =>
        match value with
        | none => readOptions v g (.awaiting f) rest
        | some s =>
          match g.take f s with
          | .error e => .error e
          | .ok g => readOptions v g .nothing rest

def required {α : Type} : Option α → Except Refusal α
  | none => .error .missingOption
  | some x => .ok x

def Verb.task (v : Verb) (g : Given) : Except Refusal Task :=
  match v with
  | .query => (required g.entity).map .query
  | .compile => (required g.entity).map .compile
  | .get => do
    let entity ← required g.entity
    let id ← required g.id
    pure (.get entity id)
  | .create => do
    let entity ← required g.entity
    let user ← required g.user
    pure (.create entity user)
  | .update => do
    let entity ← required g.entity
    let id ← required g.id
    let user ← required g.user
    pure (.update entity id user)
  | .delete => do
    let entity ← required g.entity
    let id ← required g.id
    pure (.delete entity id)
  | .audit => .ok (.audit g.entity g.user g.limit)

def standardConfig : String := "./crmcore.json"

/-- Whether help on these names can be given: one command, or help itself. -/
def isHelpTopic : List String → Bool
  | [] => true
  | [name] => name == "help" || (Verb.ofName? name).isSome
  | _ => false

def afterSeparator : List String → Refusal
  | [] => .noCommand
  | name :: _ =>
    if name == "help" || (Verb.ofName? name).isSome then .unknownArgument else .unknownCommand

def ofArguments : List String → Except Refusal Command
  | [] => .error .noCommand
  | first :: rest =>
    match Argument.ofText first with
    | .separator => .error (afterSeparator rest)
    | .short letters =>
      .error (if asksForHelp letters then .helpWanted
        else if letters.head? = some 'V' then .versionWanted else .unknownArgument)
    | .long name value =>
      .error (if name = helpName ∨ name = versionName then
          if value.isSome then .unneededValue
          else if name = helpName then .helpWanted else .versionWanted
        else .unknownArgument)
    | .word name =>
      match Verb.ofName? name with
      | some v => do
        let given ← readOptions v .nothing .nothing (rest.map Argument.ofText)
        let task ← v.task given
        pure ⟨⟨given.config.getD standardConfig⟩, task⟩
      | none =>
        .error (if name = "help" ∧ isHelpTopic rest then .helpWanted else .unknownCommand)

end Clientele.Command
