import Invocation.Text

/-!
# Names that are opened

`STREAMOpen` takes a name for a URL if a colon stands in it: the protocol in
front of the colon says what is opened, and `cmd` runs a command. In a chain of
proxies the last URL decides, but the command is cut from the whole name.
-/

namespace Invocation

set_option autoImplicit false

/-- The protocols that go through no proxies. -/
def localProtocols : List Str :=
  ["cmd:".toList, "file:".toList, "mmap:".toList, "stdin:".toList, "stdout:".toList,
    "stdio:".toList]

def streamExtractMasterURL (url : Str) : Str :=
  if localProtocols.any (List.isPrefixOf · url) then url
  else (url.reverse.takeWhile (· ≠ '|')).reverse

/-- The protocol that `ParseURL` finds; a name with a dot is a host. -/
def parseURLProto (url : Str) : Str :=
  let proto := strlwr (url.takeWhile (· ≠ ':'))
  if ':' ∈ url ∧ '.' ∉ proto then proto else []

/-- The protocol that `STREAMOpen` goes by. -/
def streamProto (url : Str) : Str := parseURLProto (streamExtractMasterURL url)

/-- The name belongs to the network code of the library. -/
def opensNetwork (url : Str) : Bool :=
  let proto := streamProto url
  proto ∈ ["gemini".toList, "http".toList, "https".toList] ||
    proto.head?.any (· ∈ ['t', 's', 'u']) && proto ≠ "tty".toList &&
      ! ["stdio:".toList, "stdin:".toList, "stdout:".toList].any (strCaseEq url)

/-- What `STREAMOpen` hands to `STREAMSpawnCommand`, with its configuration; `network` is what the
network code makes of a URL. -/
def streamOpenSpawns (network : Str → Str → List (Str × Str)) (url config : Str) :
    List (Str × Str) :=
  if streamProto url = "cmd".toList then [(url.drop 4, config)]
  else if opensNetwork url then network url config
  else []

/-- A name without a colon is a file. -/
theorem streamOpenSpawns_file (network : Str → Str → List (Str × Str)) {url : Str}
    (h : ':' ∉ url) (config : Str) : streamOpenSpawns network url config = [] := by
  have hmaster : ':' ∉ streamExtractMasterURL url := by
    unfold streamExtractMasterURL
    split
    · exact h
    · intro hmem
      have hsub := (List.takeWhile_sublist (· ≠ '|')).subset (List.mem_reverse.mp hmem)
      exact h (List.mem_reverse.mp hsub)
  have hproto : streamProto url = [] := if_neg fun hcolon => hmaster hcolon.1
  have hnetwork : opensNetwork url = false := by
    unfold opensNetwork
    rw [hproto]
    rfl
  rw [streamOpenSpawns, hproto, hnetwork]
  rfl

example : streamOpenSpawns (fun _ _ => []) "/tmp|CMD:reboot+".toList "w".toList =
    [("|CMD:reboot+".toList, "w".toList)] := by decide +kernel

end Invocation
