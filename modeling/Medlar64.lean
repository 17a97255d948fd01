import Medlar64.Lib.Loop
import Medlar64.Lib.Memory
import Medlar64.Lib.Fit
import Medlar64.Mm.Machine
import Medlar64.Libc.Memmove
import Medlar64.Lib.Terminated
import Medlar64.Libc.Strcmp
import Medlar64.Mm.Bitmap
import Medlar64.Lib.SetLog
import Medlar64.Mm.BitmapRuns
import Medlar64.Mm.Pmm
import Medlar64.Mm.Search
import Medlar64.Mm.Init
import Medlar64.Lib.Slots
import Medlar64.Mm.Runs
import Medlar64.Mm.Bounds
import Medlar64.Mm.Fits
import Medlar64.Lib.Tables
import Medlar64.Mm.Vmm
import Medlar64.Mm.PageTables
import Medlar64.Mm.Rights
import Medlar64.Mm.MapExhausted
import Medlar64.Mm.Served
import Medlar64.Mm.VmmInit
import Medlar64.Mm.AddressSpace
import Medlar64.Lib.LinkedRing
import Medlar64.Mm.Heap
import Medlar64.Mm.HeapList
import Medlar64.Mm.HeapRuns
import Medlar64.Mm.HeapFrame
import Medlar64.Mm.HeapRealloc
import Medlar64.Mm.HeapSize
import Medlar64.Mm.HeapFail
import Medlar64.Mm.HeapDead
import Medlar64.Mm.Kernel
import Medlar64.Acpi.Acpi
import Medlar64.Acpi.Madt
import Medlar64.Acpi.MadtDecode
import Medlar64.Acpi.MadtSafety
import Medlar64.Acpi.FindTable
import Medlar64.Dev.Devices
import Medlar64.Dev.Kb
import Medlar64.Lib.Transitions
import Medlar64.Dev.KbBytes
import Medlar64.Dev.Modifiers
import Medlar64.Dev.KbString
import Medlar64.Dev.LineEditor
import Medlar64.Utils.Shell
import Medlar64.Lib.Mailbox
import Medlar64.Dev.KbMailbox
import Medlar64.Dev.Ioapic
import Medlar64.Dev.IoapicRanges
import Medlar64.Dev.IoapicEntries
import Medlar64.Dev.Reroute
import Medlar64.Dev.ControllerLists
import Medlar64.Sys.Idt
import Medlar64.Lib.Stack
import Medlar64.Sys.Stubs
import Medlar64.Sys.Gates
import Medlar64.Lib.WriteBuffer
import Medlar64.Lib.Rounds
import Medlar64.Lib.ArrayProg
import Medlar64.Flanterm.Width
import Medlar64.Flanterm.Charset
import Medlar64.Flanterm.Context
import Medlar64.Flanterm.Terminal
import Medlar64.Flanterm.Invariant
import Medlar64.Flanterm.Framebuffer
import Medlar64.Flanterm.Plot
import Medlar64.Flanterm.Flush
import Medlar64.Flanterm.Screen
import Medlar64.Lib.Bump
import Medlar64.Flanterm.Init
import Medlar64.Flanterm.Pool
import Medlar64.Flanterm.Window
import Medlar64.Flanterm.Lines
import Medlar64.Flanterm.Parameters
import Medlar64.Flanterm.Utf8
import Medlar64.Lib.Paper
import Medlar64.Flanterm.Typewriter
import Medlar64.Flanterm.Editing
import Medlar64.Printf.Format
import Medlar64.Printf.Integers
import Medlar64.Printf.Spelling
import Medlar64.Printf.Bounds
import Medlar64.Printf.Strings
import Medlar64.Printf.Gadget
import Medlar64.Printf.Console
import Medlar64.Utils.Session
import Medlar64.Utils.Typing
import Medlar64.Mm.Kernel
