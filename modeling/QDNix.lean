import QDNix.Lib.Loop
import QDNix.Lib.Memory
import QDNix.Lib.Mips
import QDNix.Lib.Numeral
import QDNix.Lib.Quoting
import QDNix.Lib.X86Flags
import QDNix.Lib.Makefile
import QDNix.Lib.Shell
import QDNix.Kern.Console
import QDNix.Kern.ConsoleBuffer
import QDNix.Kern.ConsoleStream
import QDNix.Kern.ConsolePairing
import QDNix.Kern.ConsoleDriver
import QDNix.Kern.BootLine
import QDNix.Libkern.Format
import QDNix.Libkern.PrintkFormat
import QDNix.Libkern.PrintkSigned
import QDNix.Libkern.PrintkScan
import QDNix.Libkern.PrintkCalls
import QDNix.Libkern.String
import QDNix.Libkern.PrintkLine
import QDNix.Libkern.Overlap
import QDNix.Dev.Serial8250
import QDNix.Dev.Serial8250Stream
import QDNix.Dev.Serial8250Init
import QDNix.Dev.Serial8250Live
import QDNix.Dev.SerialBoot
import QDNix.Arm.Uart
import QDNix.Arm.Entry
import QDNix.Arm.Boot
import QDNix.Riscv.Uart
import QDNix.Riscv.Entry
import QDNix.Riscv.Boot
import QDNix.Mips.Entry
import QDNix.Mips.Tlb
import QDNix.Mips.Init
import QDNix.Mips.BootLine
import QDNix.Mips.HandOff
import QDNix.Mips.Trap
import QDNix.I386.Isr
import QDNix.I386.IsrTransparent
import QDNix.I386.Entry
import QDNix.I386.Init
import QDNix.I386.Cpuid
import QDNix.I386.BootLine
import QDNix.Geminid.Gemini
import QDNix.Geminid.Request
import QDNix.Geminid.Handler
import QDNix.Geminid.Reply
import QDNix.Geminid.Fragments
import QDNix.Geminid.Uri
import QDNix.Geminid.Server
import QDNix.Geminid.PathBuffer
import QDNix.Geminid.Accounts
import QDNix.Geminid.Start
import QDNix.Httpd.Options
import QDNix.Ed.Flags
import QDNix.Tools.Config
import QDNix.Tools.Fragment
import QDNix.Tools.Download
import QDNix.Tools.SiteMap
import QDNix.Tools.Package
