import SystemdShim.Glib

/- systemd-iface.h: the D-Bus interfaces, and the values a call can carry.
   GDBus hands a call to the shim only when the interface declares its method
   and its arguments have the declared types. -/
namespace Shim

/-- The types the interfaces and the shim name; any other by its signature. -/
inductive DBusType where
  | s
  | b
  | as
  | au
  | asv
  | asasv
  | other (signature : String)
  deriving DecidableEq

/-- A D-Bus value. Of a value of a type the shim never asks for, only the type
is kept. -/
inductive Variant where
  | string (v : Bytes)
  | boolean (v : Bool)
  | stringArray (vs : List Bytes)
  | uint32Array (vs : List UInt32)
  | properties (vs : List (Bytes × Variant))
  | auxUnits (vs : List (Bytes × List (Bytes × Variant)))
  | other (signature : String)

def Variant.type : Variant → DBusType
  | .string _ => .s
  | .boolean _ => .b
  | .stringArray _ => .as
  | .uint32Array _ => .au
  | .properties _ => .asv
  | .auxUnits _ => .asasv
  | .other signature => .other signature

structure ArgInfo where
  name : String
  type : DBusType
  deriving DecidableEq

structure MethodInfo where
  name : String
  inArgs : List ArgInfo
  deriving DecidableEq

structure InterfaceInfo where
  name : String
  methods : List MethodInfo
  deriving DecidableEq

/-- org.freedesktop.systemd1.Manager, for a version of systemd. -/
def managerIface (systemdVersion : Nat) : InterfaceInfo where
  name := "org.freedesktop.systemd1.Manager"
  methods :=
    [⟨"GetUnitFileState", [⟨"file", .s⟩]⟩,
     ⟨"DisableUnitFiles", [⟨"files", .as⟩, ⟨"runtime", .b⟩]⟩,
     ⟨"EnableUnitFiles", [⟨"files", .as⟩, ⟨"runtime", .b⟩, ⟨"force", .b⟩]⟩,
     ⟨"Reload", []⟩,
     ⟨"StartUnit", [⟨"name", .s⟩, ⟨"mode", .s⟩]⟩,
     ⟨"StopUnit", [⟨"name", .s⟩, ⟨"mode", .s⟩]⟩,
     ⟨"StartTransientUnit", [⟨"name", .s⟩, ⟨"mode", .s⟩, ⟨"properties", .asv⟩] ++
       (if 209 ≤ systemdVersion then [⟨"aux", .asasv⟩] else [])⟩,
     ⟨"Subscribe", []⟩,
     ⟨"Unsubscribe", []⟩]

def scopeIface : InterfaceInfo where
  name := "org.freedesktop.systemd1.Scope"
  methods := [⟨"Abandon", []⟩]

/-- Only a property. -/
def unitIface : InterfaceInfo where
  name := "org.freedesktop.systemd1.Unit"
  methods := []

end Shim
