/-
# `Unmask.Name.Lexicon` — names that keep their spelling

Three lists of words: the keywords of JavaScript, which are neither renamed
nor handed out; the names of the host, whose meaning lies outside the script;
and the names that the settings add to those.  `Protection.allows` is the one
question asked of them.
-/

namespace Unmask

/-- The keywords of JavaScript. -/
def reservedWords : List String :=
  ["break", "case", "catch", "class", "const", "continue", "debugger", "default",
   "delete", "do", "else", "export", "extends", "finally", "for", "function",
   "if", "import", "in", "instanceof", "let", "new", "return", "super",
   "switch", "this", "throw", "try", "typeof", "var", "void", "while", "with", "yield"]

/-- Names of the host, the document model and the download interfaces. -/
def hostNames : List String :=
  ["document", "window", "navigator", "location", "console",
   "getElementById", "querySelector", "querySelectorAll",
   "createElement", "appendChild", "removeChild", "innerHTML",
   "addEventListener", "removeEventListener", "setTimeout", "setInterval",
   "setClipboardCopyData", "clearTimeout", "clearInterval",
   "localStorage", "sessionStorage", "fetch", "XMLHttpRequest",
   "File", "Blob", "download", "URL", "createObjectURL",
   "DownloadFile", "WebClient", "charCodeAt", "fromCharCode"]

def isReserved (name : String) : Bool := reservedWords.contains name

/-- The names to leave alone beside those of the host. -/
structure Protection where
  extra : List String := []
deriving Repr, DecidableEq, Inhabited

namespace Protection

/-- The host or the settings claim this name. -/
def covers (p : Protection) (name : String) : Bool :=
  hostNames.contains name || p.extra.contains name

/-- The name may be given a new spelling. -/
def allows (p : Protection) (name : String) : Bool :=
  !isReserved name && !p.covers name

end Protection

end Unmask
