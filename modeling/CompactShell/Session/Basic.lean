import CompactShell.Rewriter
import CompactShell.Session.Tally

/-!
# Sessions

A session hands each observed command to its rewriter and keeps the tally. It does nothing, and
counts nothing, while it is switched off or the compact tool is missing; it warns of the missing
tool once.
-/

namespace CompactShell

structure Session where
  rewriter : Rewriter
  available : Bool
  enabled : Bool
  tally : Session.Tally
  /-- The warning of the missing tool has been given. -/
  warned : Bool
  deriving DecidableEq, Repr

namespace Session

def new (rewriter : Rewriter) (available enabled : Bool) : Session :=
  ⟨rewriter, available, enabled, .empty, false⟩

def missingToolWarning : String :=
  "rtk-rewrite: \x60rtk\x60 not found on PATH. " ++
    "Install from https://github.com/rtk-ai/rtk; command rewriting is disabled."

/-- Rewrites one observed command and counts it. -/
def handle (session : Session) (command : List Char) : Option Rewrite × Session :=
  if !session.available || !session.enabled || command.isEmpty then (none, session)
  else
    let result := session.rewriter.rewrite? command
    (result, { session with tally := session.tally.record (result.map Rewrite.rule) })

/-- The warning of the missing tool, the first time that it is due. -/
def warning? (session : Session) : Option String × Session :=
  if session.available || session.warned then (none, session)
  else (some missingToolWarning, { session with warned := true })

def reset (session : Session) : Session :=
  { session with tally := .empty }

def toggle (session : Session) : Session :=
  { session with enabled := !session.enabled }

def report (session : Session) : String :=
  session.tally.report session.enabled

end Session

end CompactShell
