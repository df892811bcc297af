import Strata.Path.Basic

/-! Arguments of the command line.

Paths, and options before, between or behind them: `--config FILE` or `-c FILE`, `--dry-run`,
`--verbose` or `-v`, `--help` or `-h`. Short options may be run together, a value may follow its
option directly or behind an equals sign, and behind two dashes all is a path. No option may be given
twice, no value may be empty or, as an argument of its own, look like an option. -/
namespace Strata.Cli

structure Options where
  paths : List FilePath := []
  config : Option FilePath := none
  dryRun : Bool := false
  verbose : Bool := false
deriving DecidableEq, Repr

inductive Request where
  | help
  | migrate (options : Options)
deriving DecidableEq, Repr

namespace Options

def addPath? (o : Options) (text : String) : Option Options :=
  if text.isEmpty then none else some { o with paths := o.paths ++ [⟨text⟩] }

def setConfig? (o : Options) (text : String) : Option Options :=
  if text.isEmpty || o.config.isSome then none else some { o with config := some ⟨text⟩ }

def setDryRun? (o : Options) : Option Options :=
  if o.dryRun then none else some { o with dryRun := true }

def setVerbose? (o : Options) : Option Options :=
  if o.verbose then none else some { o with verbose := true }

end Options

/-- What one argument amounts to. -/
inductive Effect where
  | help
  | done (options : Options)
  /-- The next argument is the value of `--config`. -/
  | awaitConfig (options : Options)

/-- An argument that starts with two dashes, without them. -/
def longOption? (o : Options) (body : List Char) : Option Effect :=
  let name := String.ofList (body.takeWhile (· != '='))
  match name, body.dropWhile (· != '=') with
  | "help", [] => some .help
  | "dry-run", [] => o.setDryRun?.map .done
  | "verbose", [] => o.setVerbose?.map .done
  | "config", [] => some (.awaitConfig o)
  | "config", _ :: value => (o.setConfig? (.ofList value)).map .done
  | _, _ => none

/-- The letters behind a single dash. -/
def shortOptions? (o : Options) : List Char → Option Effect
  | [] => some (.done o)
  | 'h' :: _ => some .help
  | 'v' :: more =>
    match o.setVerbose? with
    | none => none
    | some o => shortOptions? o more
  | ['c'] => some (.awaitConfig o)
  | 'c' :: '=' :: value => (o.setConfig? (.ofList value)).map .done
  | 'c' :: value => (o.setConfig? (.ofList value)).map .done
  | _ => none

def looksLikeOption (argument : String) : Bool :=
  argument.toList.head? == some '-' && argument != "-"

/-- The request that some arguments make behind others, none when they are not understood. -/
def request? (o : Options) : (arguments : List String) → Option Request
  | [] => if o.paths.isEmpty then none else some (.migrate o)
  | argument :: more =>
    if argument = "--" then
      match more.foldlM Options.addPath? o with
      | none => none
      | some o => if o.paths.isEmpty then none else some (.migrate o)
    else
      let effect : Option Effect :=
        if argument.toList.take 2 = ['-', '-'] then longOption? o (argument.toList.drop 2)
        else if looksLikeOption argument then shortOptions? o (argument.toList.drop 1)
        else (o.addPath? argument).map .done
      match effect with
      | none => none
      | some .help => some .help
      | some (.done o) => request? o more
      | some (.awaitConfig o) =>
        match more with
        | [] => none
        | value :: more =>
          if looksLikeOption value then none
          else
            match o.setConfig? value with
            | none => none
            | some o => request? o more

end Strata.Cli
