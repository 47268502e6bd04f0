import DarwinVm.Profile.Installer
import DarwinVm.Profile.Prepare
import DarwinVm.Profile.Script
import DarwinVm.Lib.Script
import DarwinVm.Seed.FailClosed
import DarwinVm.Seed.Copy
import DarwinVm.Signature.Patched
import DarwinVm.Signature.Pages
import DarwinVm.Signature.Payload
import DarwinVm.Lib.Unicode
import DarwinVm.Probe.Follow
import DarwinVm.Dump.Carve
import DarwinVm.Dump.Walk
import DarwinVm.Dump.Scan
import DarwinVm.Rootfs.Merge
import DarwinVm.Lib.Dict
import DarwinVm.Postmortem.Frames
import DarwinVm.Install.Staged
import DarwinVm.Relay.Guest
import DarwinVm.Relay.Session
import DarwinVm.Lib.Escape
import DarwinVm.Checkpoint.Process
import DarwinVm.Dt.Strictness
import DarwinVm.Dt.Pipeline
import DarwinVm.Dt.Drivers
import DarwinVm.Dt.Iops
import DarwinVm.Checkpoint.Boot
import DarwinVm.Checkpoint.Chain
import DarwinVm.Rootfs.Export
import DarwinVm.Postmortem.Memory
import DarwinVm.Postmortem.Chunks
import DarwinVm.Probe.Protocol
import DarwinVm.Serial.Confinement
import DarwinVm.Lib.Shell
import DarwinVm.Serial.Framing
import DarwinVm.Lib.Decimal
import DarwinVm.Serial.Upload
import DarwinVm.Lib.Base64
import DarwinVm.Serial.Wait
import DarwinVm.Serial.Batch
import DarwinVm.Serial.Witness
import DarwinVm.Serial.Log
import DarwinVm.Lib.Occurs
import DarwinVm.Lib.Seams
import DarwinVm.Signature.Directory
import DarwinVm.Tc.Build
import DarwinVm.Tc.Merge
import DarwinVm.Lib.Except
import DarwinVm.Tc.Module
import DarwinVm.Lib.Keyed
import DarwinVm.Power.Percent
import DarwinVm.Dt.Generate
import DarwinVm.Dt.Passthrough
import DarwinVm.Dt.Recode
import DarwinVm.Dt.Fixup
import DarwinVm.Dt.Locality
import DarwinVm.Dt.Patch
import DarwinVm.Dt.Format
import DarwinVm.Lib.PyText
import DarwinVm.Lib.Layout
import DarwinVm.Lib.Tree
import DarwinVm.Lib.Utf8
import DarwinVm.Relay.Queue
import DarwinVm.Lib.Coalesce
import DarwinVm.Power.Lifecycle
import DarwinVm.Power.Service
import DarwinVm.Hid.Reader
import DarwinVm.Hid.Wheel
import DarwinVm.Hid.Timeline
import DarwinVm.Hid.Grammar
import DarwinVm.Hid.Accounting
import DarwinVm.Hid.Recovery
import DarwinVm.Hid.Notify
import DarwinVm.Hid.Bracketing
import DarwinVm.Hid.Injector
import DarwinVm.Hid.Handle
import DarwinVm.Lib.Bracket
import DarwinVm.Lib.System
import DarwinVm.Lib.Ring
import DarwinVm.Lib.Bytes
import DarwinVm.Hid.Record
import DarwinVm.Lib.Patch
import DarwinVm.Dt.Edits
import DarwinVm.Dt.Whole
import DarwinVm.Dt.Scope
import DarwinVm.Dt.Reread
import DarwinVm.Dt.Once
import DarwinVm.Kernelcache.Rtc
import DarwinVm.Kernelcache.Smp
