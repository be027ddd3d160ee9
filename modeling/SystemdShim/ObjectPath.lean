import SystemdShim.Glib

/- The object-path codec of systemd-shim.c. -/
namespace Shim

/-- The loop of unescape_object_path. `skip` is what is left of an `i += 2`;
past the end of the list stands the terminating NUL. -/
def unescapeLoop : Nat → Bytes → Bytes
  | _, [] => []
  | skip + 1, _ :: path => unescapeLoop skip path
  | 0, c :: path =>
    if c = chr '_' then
      if gAsciiIsxdigit (path.headD 0) && gAsciiIsxdigit (path.tail.headD 0) then
        let val := gAsciiXdigitValue (path.headD 0) * 16 + gAsciiXdigitValue (path.tail.headD 0)
        if gAsciiIsgraph (UInt8.ofInt val) then UInt8.ofInt val :: unescapeLoop 2 path
        else unescapeLoop 2 path
      else unescapeLoop 0 path
    else c :: unescapeLoop 0 path

def unescapeObjectPath (path : Bytes) : Bytes := unescapeLoop 0 path

/-- What escape_object_path writes for a byte that is not alphanumeric: the
index advances by three, whatever snprintf was given to print. -/
def escapeByte (c : UInt8) : Bytes :=
  snprintfTruncate 4 (chr '_' :: formatHex02 (guintOfChar c))

/-- The loop of escape_object_path. -/
def escapeObjectPath : Bytes → Bytes
  | [] => []
  | c :: path =>
    if gAsciiIsalnum c then c :: escapeObjectPath path
    else escapeByte c ++ escapeObjectPath path

end Shim
