import DialectBindings.Delivery

/-!
# Batches

Definition files are worked through in order until one fails. What was written before stays. With
the option for it, the registry of all magic numbers is written last, beside the first file.
-/

set_option autoImplicit false

namespace DialectBindings
open Text

structure BatchReport where
  mode : OutputMode
  artifacts : List Path
  registry : Option Path
  magicNumbers : Registry

namespace Batch

variable {m : Type → Type} [Monad m] [Host m]

structure Done where
  magicNumbers : Registry
  artifacts : List Path

def Done.nothing : Done := ⟨Registry.empty, []⟩

def doFile (engine : Engine) (layout : Layout) (mode : OutputMode) (done : Done) (file : Path) :
    Host.Step m Done := do
  let invocation ← Invocation.run engine layout file
  let messages := invocation.descriptors.messages
  (done.magicNumbers.overrides messages).forM fun o => Host.tell (.overridden o)
  let artifact ← Delivery.deliver mode layout file invocation.code
  return ⟨done.magicNumbers.addAll messages, done.artifacts ++ artifact.toList⟩

/-- A file with the display of its progress: its name at first, and then whether it is done. What
the display answers is not looked at. -/
def showFile (engine : Engine) (layout : Layout) (mode : OutputMode) (done : Done)
    (file : Path) : Host.Step m Done :=
  ExceptT.mk do
    let _ ← Host.progressAll ["Generating ", file.displayName, "..."]
    let _ ← Host.flushProgress
    let result ← (doFile engine layout mode done file).run
    let _ ← Host.progress (if result.isOk then " done\n" else "\n")
    return result

def doFiles (engine : Engine) (layout : Layout) (mode : OutputMode) (done : Done) :
    List Path → Host.Step m Done
  | [] => return done
  | file :: rest => do
    let done ← showFile engine layout mode done file
    doFiles engine layout mode done rest

def writeRegistry (layout : Layout) (options : BatchOptions) (files : List Path) (r : Registry) :
    Host.Step m (Option Path) := do
  match options.magic, files with
  | true, first :: _ =>
    let path := layout.registryPath first
    Artifact.write ⟨path, r.render⟩
    return some path
  | _, _ => return none

def run (engine : Engine) (files : List Path) (options : BatchOptions) (layout : Layout) :
    Host.Step m BatchReport := do
  let mode := OutputMode.select files.length options
  Host.tell (.starting mode files.length)
  let done ← doFiles engine layout mode .nothing files
  let registry ← writeRegistry layout options files done.magicNumbers
  return ⟨mode, done.artifacts, registry, done.magicNumbers⟩

end Batch

end DialectBindings
