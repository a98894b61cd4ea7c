import Reld.Elf.TableWriter
import Reld.Alternatives.Priorities
import Reld.Alternatives.NonDynamic
import Reld.Resolve.Canonicalise
import Reld.Elf.VersionIndexes
import Reld.Relax.Offsets
import Reld.Relax.JalRange
import Reld.Reloc.RiscVPairs
import Reld.Reloc.Pcala
import Reld.Reloc.Thunks
import Reld.Reloc.X86GotSound
import Reld.Layout.StartOffsets
import Reld.Layout.DebugImageSame
import Reld.Thunks.Reach
import Reld.Merge.Address
import Reld.Merge.AllApplied
import Reld.MachO.Binds
import Reld.Dynsym.Versions
import Reld.Tls.Agree
import Reld.Layout.SectionRules
import Reld.Elf.GnuProperties
import Reld.Input.FindMatch
import Reld.Input.LibrarySearch
import Reld.Input.SymbolPatterns
import Reld.Link.RustVersionScript
import Reld.Layout.Constants
import Reld.Layout.Redirects
import Reld.LinkerScript.RoundTrip
import Reld.Layout.InStep
import Reld.Layout.SegmentBalance
import Reld.Layout.CustomPhdrs
import Reld.Layout.RelaxedLayout
import Reld.Gc.Marking
import Reld.Bridge.Transparent
import Reld.Bridge.RuntimeDlls
import Reld.Bridge.ScriptInsert
import Reld.EhFrame.Unwind
import Reld.EhFrame.Sframe
import Reld.Verdefs.Correct
import Reld.Db.Get
import Reld.Elf.RiscVAttributes
import Reld.Reloc.PairUleb128
import Reld.Relax.CallBytes
import Reld.Relax.Rescan
import Reld.Db.SymbolGlob
import Reld.Args.ResponseFile
import Reld.MachO.Slots
import Reld.Reloc.PltEntry
import Reld.MachO.LoadCommands
import Reld.MachO.Denotes
import Reld.Layout.SortedSections
import Reld.Layout.SecondaryParts
import Reld.Link.OutputFile
