import Daloy.Foundations.SearchWindows

/-! # The signatures of the firewall

The four rules and their curated patterns, in the order they are tried. Letters stand for both
cases, as under the flag `i`; the patterns without that flag have no letters.

* `signatures_windowed`: every pattern is fit for windows that overlap by `WINDOW_OVERLAP`: with
  white space collapsed its matches are that short, and its boundaries survive the edge of a window.
-/

namespace Daloy.Waf
set_option autoImplicit false

open Daloy.Unicode Daloy.SearchPatterns

inductive WafRuleId
  | sqli
  | xss
  | nosqli
  | cmdi
  deriving DecidableEq

def ALL_RULE_IDS : List WafRuleId := [.sqli, .xss, .nosqli, .cmdi]

def WINDOW_OVERLAP : ℕ := 512

def MAX_SIGNATURE_RUN : ℕ := 256

/-! ## The patterns -/

/-- `(?:word|word|…)`. -/
def words (ws : List String) : Pattern := .anyOf (ws.map fun w => .text (js w))

/-- `[us]`. -/
def oneOf (us : String) : Pattern := .one (.among (js us))

/-- `['"]`. -/
def quotes : JsString := js "'\""

def SQLI_SIGNATURES : List Pattern :=
  [ .all [.boundary, .text (js "UNION"), .boundary, .upTo .any 0 40, .boundary, .text (js "SELECT"),
      .boundary],
    .all [.boundary, words ["OR", "AND"], .boundary, .spaces 1, .maybe quotes,
      .upTo .digit 1 MAX_SIGNATURE_RUN, .maybe quotes, .spaces 0, oneOf "=", .spaces 0,
      .maybe quotes, .upTo .digit 1 MAX_SIGNATURE_RUN],
    .all [oneOf "'", .spaces 0, words ["OR", "AND"], .spaces 1, .maybe (js "'"),
      .upTo .word 1 MAX_SIGNATURE_RUN, .maybe (js "'"), .spaces 0, oneOf "=", .spaces 0,
      .maybe (js "'"), .upTo .word 1 MAX_SIGNATURE_RUN],
    .all [.boundary, words ["OR", "AND"], .spaces 0, oneOf "(", .spaces 0, .text (js "SELECT"),
      .boundary],
    .all [oneOf ";", .spaces 0,
      words ["DROP", "DELETE", "INSERT", "UPDATE", "TRUNCATE", "ALTER", "CREATE"], .boundary],
    .all [.boundary, words ["SLEEP", "BENCHMARK", "PG_SLEEP"], .spaces 0, oneOf "("],
    .all [.boundary, .text (js "WAITFOR"), .spaces 1, .text (js "DELAY"), .boundary],
    .all [.boundary, .text (js "INFORMATION_SCHEMA"), .boundary],
    .all [.boundary, .text (js "xp_cmdshell"), .boundary],
    .all [.boundary, words ["LOAD_FILE", "OUTFILE", "DUMPFILE"], .boundary] ]

/-- A word with one of several ends, or with none where `""` is one of them. -/
def stem (front : String) (ends : List String) : Pattern := words (ends.map (front ++ ·))

/-- The names of event handlers, after `on`. -/
def handlers : Pattern :=
  .anyOf
    [ words ["error", "load", "click", "dblclick"], stem "aux" ["click", ""],
      .text (js "contextmenu"),
      stem "mouse" ["over", "enter", "move", "down", "up", "out", "leave"],
      stem "pointer" ["over", "enter", "down", "up", "move", "rawupdate", "leave"],
      stem "touch" ["start", "move", "end"], stem "focus" ["in", "out", ""],
      words ["blur", "input", "change", "submit", "reset", "toggle", "beforetoggle", "scroll",
        "wheel", "drag", "drop", "copy", "cut", "paste", "play", "playing", "canplay", "show",
        "hashchange", "popstate", "pageshow", "pagehide", "message"],
      stem "animation" ["start", "end", "iteration"], .text (js "transitionend"),
      stem "key" ["down", "up", "press"], stem "load" ["start", "end"], .text (js "progress") ]

/-- An element with a handler in it, as `<img …onerror=`. -/
def handlerIn (element handler : String) (most : ℕ) : Pattern :=
  .all [.text (js element), .upTo .any 0 most, .boundary, .text (js handler), .spaces 0, oneOf "="]

def XSS_SIGNATURES : List Pattern :=
  [ .all [.text (js "<script"), .upTo .any 0 40, oneOf ">"],
    .all [.text (js "</script"), .spaces 0, oneOf ">"],
    .all [.text (js "javascript:"), .spaces 0, .one .notSpace],
    .all [.boundary, .text (js "on"), handlers, .spaces 0, oneOf "="],
    .all [.text (js "<iframe"), .alt (.one .space) (oneOf ">")],
    handlerIn "<img" "onerror" 80,
    handlerIn "<svg" "onload" 40,
    handlerIn "<body" "onload" 40,
    .all [.boundary, .text (js "document.cookie"), .boundary] ]

def NOSQLI_SIGNATURES : List Pattern :=
  [ .all [oneOf "$",
      words ["ne", "gt", "gte", "lt", "lte", "in", "nin", "where", "regex", "exists", "elemMatch",
        "expr", "function", "or", "and", "not"], .boundary],
    .all [oneOf "\x7b", .spaces 0, .maybe (js "\""), oneOf "$", .upTo .word 1 MAX_SIGNATURE_RUN] ]

def CMDI_SIGNATURES : List Pattern :=
  [ .all [oneOf ";&|", .spaces 0,
      words ["cat", "ls", "rm", "zsh", "python", "perl", "ruby", "php", "powershell", "pwsh",
        "whoami", "id", "uname", "chmod", "chown", "kill", "nslookup", "ping", "nc", "ncat", "bash",
        "sh", "wget", "curl"], .boundary],
    .all [.text (js "$("), .upTo .any 0 60, oneOf ")"],
    .all [.one (.among [0x60]), .upTo (.except 0x60) 1 60, .one (.among [0x60])],
    .all [oneOf "|", .spaces 0, words ["nc", "ncat", "bash", "sh", "wget", "curl"], .boundary],
    .all [.text (js "&&"), .spaces 0, words ["cat", "ls", "rm", "whoami", "id", "wget", "curl"],
      .boundary],
    .all [oneOf "/", words ["etc/passwd", "etc/shadow", "bin/sh", "bin/bash"], .boundary] ]

def SIGNATURES : WafRuleId → List Pattern
  | .sqli => SQLI_SIGNATURES
  | .xss => XSS_SIGNATURES
  | .nosqli => NOSQLI_SIGNATURES
  | .cmdi => CMDI_SIGNATURES

/-! ## What holds of every pattern -/

theorem signatures_windowed (ruleId : WafRuleId) :
    ∀ p ∈ SIGNATURES ruleId, p.windowed WINDOW_OVERLAP = true := by
  cases ruleId <;> decide +kernel

theorem signatures_consume (ruleId : WafRuleId) :
    ∀ p ∈ SIGNATURES ruleId, p.consumes = true := by
  cases ruleId <;> decide +kernel

theorem test_nil {ruleId : WafRuleId} {p : Pattern} (hp : p ∈ SIGNATURES ruleId) :
    p.test [] = false := by
  rw [Bool.eq_false_iff]
  intro htest
  obtain ⟨front, m, post, hnil, hm⟩ := (test_iff p []).mp htest
  obtain ⟨-, hrest⟩ := List.append_eq_nil_iff.mp hnil.symm
  obtain ⟨rfl, -⟩ := List.append_eq_nil_iff.mp hrest
  exact consumes_matches (signatures_consume ruleId p hp) hm rfl

example : (SIGNATURES .sqli).any (·.test (js "id=1' or 1=1")) = true := by decide +kernel
example : (SIGNATURES .xss).any (·.test (js "online=1")) = false := by decide +kernel

end Daloy.Waf
